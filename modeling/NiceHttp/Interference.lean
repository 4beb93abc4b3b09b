/-
# How a route disturbs the routes of other methods

`Router::handle` builds the pattern of every route that it passes, so a route
of another method than the request's still stops the scan if its pattern is
invalid. It changes nothing exactly if its pattern is valid, or the scan stops
before it, or stops behind it at an invalid pattern anyway
(`same_outcome_iff`).

Key definitions: `Passes`, `Stop`.
Key theorems: `stop_or_untaken`, `handle_stop_invalid`, `handle_stop_valid`,
`handle_add_passes`, `handle_add_invalid`.
-/
import NiceHttp.Router

namespace NiceHttp

open CString

section Stop

variable {regex : Regex} {s : Router} {req : Request}

/-- The scan goes on behind the route. -/
def Passes (regex : Regex) (req : Request) (r : Route) : Prop := Valid regex r ∧ ¬ Takes regex req r

/-- The route is the first that the scan does not go on behind. -/
def Stop (regex : Regex) (s : Router) (req : Request) (r : Route) : Prop :=
  r ∈ s.routes ∧ ¬ Passes regex req r ∧ ∀ x ∈ s.routes, x.key < r.key → Passes regex req x

theorem takes_of_not_passes {r : Route} (hv : Valid regex r) (h : ¬ Passes regex req r) : Takes regex req r := by
  by_contra ht
  exact h ⟨hv, ht⟩

/-- Two stops are the same route. -/
theorem stop_unique {r x : Route} (hr : Stop regex s req r) (hx : Stop regex s req x) : r = x := by
  have hkey : r.key = x.key := by
    by_contra hne
    rcases lt_or_gt_of_ne hne with hlt | hlt
    · exact hr.2.1 (hx.2.2 r hr.1 hlt)
    · exact hx.2.1 (hr.2.2 x hx.1 hlt)
  have h1 := SortedSet.get_eq_some.mpr ⟨hr.1, rfl⟩
  have h2 := SortedSet.get_eq_some.mpr ⟨hx.1, rfl⟩
  rw [hkey, h2] at h1
  exact (Option.some.inj h1).symm

/-- **Where the scan stops**, or that it does not. -/
theorem stop_or_untaken (regex : Regex) (s : Router) (req : Request) :
    (∃ r, Stop regex s req r) ∨ Untaken regex s req := by
  rcases SortedSet.exists_first (Passes regex req) s.routes with ⟨r, hr, hno, hbefore⟩ | h
  · exact Or.inl ⟨r, hr, hno, hbefore⟩
  · exact Or.inr h

/-- At an invalid pattern the call throws. -/
theorem handle_stop_invalid {r : Route} (h : Stop regex s req r) (hv : ¬ Valid regex r) :
    s.handle regex req = { calls := [], result := .error .regexError } := by
  have hnone : regex r.uri.data = none := Option.not_isSome_iff_eq_none.mp hv
  have hp : Router.isMatch regex req r = .error .regexError := by rw [Router.isMatch, hnone]
  have hne : Router.isMatch regex req r ≠ .ok false := by
    intro hf
    rw [hp] at hf
    cases hf
  have hfind : s.find regex req = .error .regexError := by
    rw [Router.find, SortedSet.scan_first h.1 hne fun b hb hlt => isMatch_false.mpr (h.2.2 b hb hlt), hp]
    rfl
  rw [Router.handle, hfind]

/-- At a route that takes the request this route answers. -/
theorem handle_stop_valid {r : Route} (h : Stop regex s req r) (hv : Valid regex r) :
    s.handle regex req = r.handle req := by
  have hfind : s.find regex req = .ok (some r) := find_eq_some.mpr ⟨h.1, takes_of_not_passes hv h.2.1, h.2.2⟩
  rw [Router.handle, hfind]

theorem handle_untaken (h : Untaken regex s req) :
    s.handle regex req = { calls := [], result := .ok Router.notFound } := by
  rw [Router.handle, find_eq_none.mpr h]

/-- What a route answers is not an exception that no callback threw. -/
theorem handle_ne_throw (r : Route) (req : Request) :
    r.handle req ≠ { calls := [], result := .error .regexError } := by
  intro h
  by_cases hr : Admits r req
  · rw [Route.handle_admits hr] at h
    cases h
  · rw [Route.handle_denied hr] at h
    cases h

end Stop

/-! ### One more route -/

section Add

variable {regex : Regex} {s : Router} {req : Request} {x : Route}

/-- The routes without any of the key of `x`, and with `x`. -/
theorem mem_del_add {r : Route} : r ∈ ((s.del x).add x).routes ↔ r ∈ (s.del x).routes ∨ r = x := by
  have hno : ∀ b ∈ (s.del x).routes, b.key ≠ x.key := fun b hb => (SortedSet.mem_erase.mp hb).2
  rw [Router.add, SortedSet.mem_insert]
  exact or_congr_right ⟨fun h => h.1, fun h => ⟨h, hno⟩⟩

/-- A stop in front of the new route, or before one that passes, stays. -/
theorem Stop.add {y : Route} (h : Stop regex (s.del x) req y) (hx : Passes regex req x ∨ y.key < x.key) :
    Stop regex ((s.del x).add x) req y := by
  refine ⟨mem_del_add.mpr (Or.inl h.1), h.2.1, fun z hz hlt => ?_⟩
  rcases mem_del_add.mp hz with hz | rfl
  · exact h.2.2 z hz hlt
  · exact hx.resolve_right fun hlt' => lt_asymm hlt hlt'

/-- The route where the scan stops decides the outcome. -/
theorem Stop.handle_congr {s' : Router} {y : Route} (h : Stop regex s req y) (h' : Stop regex s' req y) :
    s'.handle regex req = s.handle regex req := by
  by_cases hv : Valid regex y
  · rw [handle_stop_valid h' hv, handle_stop_valid h hv]
  · rw [handle_stop_invalid h' hv, handle_stop_invalid h hv]

/-- A route of another method does not take the request. -/
theorem not_takes_of_method (hm : x.method.chars ≠ req.method) : ¬ Takes regex req x := fun h => hm h.1.symm

/-- A new route that the scan passes changes nothing. -/
theorem handle_add_passes (hx : Passes regex req x) :
    ((s.del x).add x).handle regex req = (s.del x).handle regex req := by
  rcases stop_or_untaken regex (s.del x) req with ⟨y, hy⟩ | hno
  · exact hy.handle_congr (hy.add (Or.inl hx))
  · have hadd : Untaken regex ((s.del x).add x) req := fun z hz => by
      rcases mem_del_add.mp hz with hz | rfl
      · exact hno z hz
      · exact hx
    rw [handle_untaken hadd, handle_untaken hno]

/-- A new route with an invalid pattern that the scan reaches makes the call throw. -/
theorem handle_add_invalid (hv : ¬ Valid regex x)
    (hbefore : ∀ z ∈ (s.del x).routes, z.key < x.key → Passes regex req z) :
    ((s.del x).add x).handle regex req = { calls := [], result := .error .regexError } := by
  refine handle_stop_invalid (r := x) ⟨mem_del_add.mpr (Or.inr rfl), fun h => hv h.1, fun z hz hlt => ?_⟩ hv
  rcases mem_del_add.mp hz with hz | rfl
  · exact hbefore z hz hlt
  · exact absurd hlt (lt_irrefl _)

/-- **A route of another method changes nothing exactly if its pattern is valid,
or the other routes stop the scan before it, or behind it at an invalid pattern
of their own.** -/
theorem same_outcome_iff (hm : x.method.chars ≠ req.method) :
    ((s.del x).add x).handle regex req = (s.del x).handle regex req ↔
      Valid regex x ∨ ∃ y, Stop regex (s.del x) req y ∧ (y.key < x.key ∨ ¬ Valid regex y) := by
  by_cases hv : Valid regex x
  · exact ⟨fun _ => Or.inl hv, fun _ => handle_add_passes ⟨hv, not_takes_of_method hm⟩⟩
  rcases stop_or_untaken regex (s.del x) req with ⟨y, hy⟩ | hno
  · rcases lt_or_ge y.key x.key with hlt | hge
    · exact ⟨fun _ => Or.inr ⟨y, hy, Or.inl hlt⟩, fun _ => hy.handle_congr (hy.add (Or.inr hlt))⟩
    · -- the scan comes to the new route, which throws
      rw [handle_add_invalid hv fun z hz hlt => hy.2.2 z hz (lt_of_lt_of_le hlt hge)]
      by_cases hyv : Valid regex y
      · rw [handle_stop_valid hy hyv]
        refine ⟨fun h => absurd h.symm (handle_ne_throw y req), ?_⟩
        rintro (h | ⟨z, hz, h⟩)
        · exact absurd h hv
        · obtain rfl := stop_unique hy hz
          rcases h with h | h
          · exact absurd h (not_lt.mpr hge)
          · exact absurd hyv h
      · rw [handle_stop_invalid hy hyv]
        exact ⟨fun _ => Or.inr ⟨y, hy, Or.inr hyv⟩, fun _ => rfl⟩
  · rw [handle_add_invalid hv fun z hz _ => hno z hz, handle_untaken hno]
    refine ⟨fun h => ?_, ?_⟩
    · cases h
    · rintro (h | ⟨y, hy, -⟩)
      · exact absurd h hv
      · exact absurd (hno y hy.1) hy.2.1

end Add

/-- A route without token whose callback returns 200. -/
def plainRoute (method uri : View) : Route where
  func := fun _ => .ok { code := 200, message := str "OK", proto := protoHttp1 }
  method := method
  uri := uri

/-- Patterns that are plain text, but for a single parenthesis. -/
def plainRegex : Regex := fun pattern =>
  if pattern = str "(" then none else some fun uri => decide (uri = pattern)

/-- A `GET` route. -/
def getRoute : Route := plainRoute (.literal (str "GET")) (.literal (str "/a"))

/-- A `DELETE` route with an invalid pattern. -/
def deleteRoute : Route := plainRoute (.literal (str "DELETE")) (.literal (str "("))

/-- A `GET` request to it. -/
def getRequest : Request := { method := str "GET", uri := str "/a", proto := protoHttp1 }

theorem same_outcome_iff_get :
    (((({} : Router).add getRoute).del deleteRoute).add deleteRoute).handle plainRegex getRequest =
        ((({} : Router).add getRoute).del deleteRoute).handle plainRegex getRequest ↔
      Valid plainRegex deleteRoute ∨
        ∃ y, Stop plainRegex ((({} : Router).add getRoute).del deleteRoute) getRequest y ∧
          (y.key < deleteRoute.key ∨ ¬ Valid plainRegex y) :=
  same_outcome_iff (by decide)

/-- A `DELETE` route with an invalid pattern takes the answer from a `GET` request. -/
theorem invalid_pattern_of_other_method :
    deleteRoute.method.chars ≠ getRequest.method ∧
      (({} : Router).add getRoute).handle plainRegex getRequest = getRoute.handle getRequest ∧
      ((({} : Router).add getRoute).add deleteRoute).handle plainRegex getRequest =
        { calls := [], result := .error .regexError } :=
  ⟨by decide, rfl, rfl⟩

end NiceHttp
