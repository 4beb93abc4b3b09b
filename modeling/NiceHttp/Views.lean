/-
# Which characters a route is matched by

The set of routes compares the characters of the uri views, and the pattern is
what a C function finds at `uri.data()`: the characters up to the first NUL,
which need not be at the end of the view nor in its buffer. A view whose
characters hold no NUL and that a NUL of its buffer follows (`Terminated`)
gives the pattern its own characters, whatever the memory holds behind the
buffer. Only with such views every request is matched by exactly the characters
of the views, and then a route may be replaced by one with the same characters
in another buffer (`matches_exactly_iff`).

Key definitions: `View.extend`, `View.Terminated`, `Router.behind`,
`Router.handleExactly`, `Handled.outcome`.
-/
import NiceHttp.Interference

namespace NiceHttp

open CString

/-! ### Memory behind a buffer -/

namespace View

/-- The view, with what the memory holds behind its buffer. -/
def extend (v : View) (beyond : Str) : View where
  buffer := v.buffer ++ beyond
  start := v.start
  size := v.size
  fits := by
    have := v.fits
    rw [List.length_append]
    omega

/-- A NUL of the buffer follows the view, and none is in it. -/
def Terminated (v : View) : Prop := 0 ∉ v.chars ∧ v.buffer[v.start + v.size]? = some 0

@[simp] theorem extend_chars (v : View) (beyond : Str) : (v.extend beyond).chars = v.chars := by
  have h := v.fits
  have hchars : (v.extend beyond).chars = ((v.buffer ++ beyond).drop v.start).take v.size := rfl
  rw [hchars, List.drop_append_of_le_length (by omega),
    List.take_append_of_le_length (by rw [List.length_drop]; omega)]
  rfl

/-- What a C function sees from the view on. -/
theorem drop_extend (v : View) (beyond : Str) :
    (v.extend beyond).buffer.drop v.start = v.chars ++ (v.buffer.drop (v.start + v.size) ++ beyond) := by
  have h := v.fits
  rw [extend, List.drop_append_of_le_length (by omega), ← List.append_assoc, ← List.drop_drop, chars,
    List.take_append_drop]

theorem data_extend {v : View} (h : v.Terminated) (beyond : Str) : (v.extend beyond).data = v.chars := by
  obtain ⟨h0, hnul⟩ := h
  obtain ⟨hlt, hget⟩ := List.getElem?_eq_some_iff.mp hnul
  have hrest : v.buffer.drop (v.start + v.size) = 0 :: v.buffer.drop (v.start + v.size + 1) := by
    rw [List.drop_eq_getElem_cons hlt, hget]
  have hdata : (v.extend beyond).data = cstr ((v.extend beyond).buffer.drop v.start) := rfl
  rw [hdata, drop_extend, hrest, List.cons_append, cstr_cut, cstr_of_notMem h0]

/-- With another byte behind the buffer only a terminated view gives its
characters. -/
theorem terminated_of_data {v : View} (h : (v.extend [1]).data = v.chars) : v.Terminated := by
  have hdata : (v.extend [1]).data = cstr ((v.extend [1]).buffer.drop v.start) := rfl
  have h0 : (0 : UInt8) ∉ v.chars := by
    rw [← h]
    exact zero_notMem_cstr _
  refine ⟨h0, ?_⟩
  rw [hdata, drop_extend, cstr_append h0] at h
  have hnil : cstr (v.buffer.drop (v.start + v.size) ++ [1]) = [] := List.append_right_eq_self.mp h
  rw [← List.head?_drop]
  cases hrest : v.buffer.drop (v.start + v.size) with
  | nil =>
    rw [hrest] at hnil
    exact absurd hnil (by decide)
  | cons c t =>
    rw [hrest, List.cons_append, cstr, List.takeWhile_cons] at hnil
    by_cases hc : c = 0
    · rw [hc]
      rfl
    · simp [hc] at hnil

end View

/-- The route, with what the memory holds behind the buffer of its uri. -/
def Route.behind (beyond : Route → Str) (r : Route) : Route := { r with uri := r.uri.extend (beyond r) }

@[simp] theorem Route.behind_key (beyond : Route → Str) (r : Route) : (r.behind beyond).key = r.key := by
  unfold key behind
  simp only [View.extend_chars]

namespace Router

/-- The router, with what the memory holds behind the buffers of the uris. -/
def behind (beyond : Route → Str) (s : Router) : Router where
  routes := s.routes.mapKey (Route.behind beyond) (Route.behind_key beyond)

/-- `match` as it should be: the pattern is the characters of the view. -/
def matchesChars (regex : Regex) (req : Request) (r : Route) : Except Exn Bool :=
  match regex r.uri.chars with
  | none => .error .regexError
  | some rgx => .ok (decide (req.method = r.method.chars) && rgx req.uri)

/-- `handle` with the predicate `p`, over routes in their order. -/
def handleBy (p : Route → Except Exn Bool) (req : Request) (l : List Route) : Handled :=
  match SortedSet.scan p l with
  | .error e => { calls := [], result := .error e }
  | .ok (some r) => r.handle req
  | .ok none => { calls := [], result := .ok notFound }

/-- `handle` as it should be: each route is matched by the characters of its uri. -/
def handleExactly (regex : Regex) (s : Router) (req : Request) : Handled :=
  handleBy (matchesChars regex req) req s.routes.toList

theorem handle_eq (regex : Regex) (s : Router) (req : Request) :
    s.handle regex req = handleBy (isMatch regex req) req s.routes.toList := rfl

/-- Where all patterns are the characters, `handle` is as it should be. -/
theorem handle_eq_exactly {regex : Regex} {s : Router} {req : Request}
    (h : ∀ r ∈ s.routes, r.uri.data = r.uri.chars) : s.handle regex req = s.handleExactly regex req := by
  have hp : ∀ r ∈ s.routes.toList, isMatch regex req r = matchesChars regex req r := fun r hr => by
    have hdata := h r hr
    cases hx : regex r.uri.chars with
    | none => simp only [isMatch, matchesChars, hdata, hx]
    | some rgx => simp only [isMatch, matchesChars, hdata, hx]
  rw [handle_eq, handleExactly, handleBy, handleBy, SortedSet.scan_congr hp]

/-- With terminated views the memory behind the buffers does not matter. -/
theorem handle_behind {s : Router} (h : ∀ r ∈ s.routes, r.uri.Terminated) (beyond : Route → Str) (regex : Regex)
    (req : Request) : (s.behind beyond).handle regex req = (s.behind beyond).handleExactly regex req := by
  refine handle_eq_exactly fun x hx => ?_
  obtain ⟨r, hr, rfl⟩ := (SortedSet.mem_mapKey (Route.behind_key beyond)).mp hx
  rw [Route.behind, View.data_extend (h r hr), View.extend_chars]

end Router

/-! ### Routes told apart by their buffers only -/

/-- Which callbacks were invoked, with which requests, and the result. -/
def Handled.outcome (h : Handled) : List ((Request → Except Exn Response) × Request) × Except Exn Response :=
  (h.calls.map fun c => (c.1.func, c.2), h.result)

/-- The same method, uri and token characters, and the same callback. -/
structure Route.Alike (x r : Route) : Prop where
  key : x.key = r.key
  func : x.func = r.func
  auth : x.auth.chars = r.auth.chars

theorem Route.alike_behind (beyond : Route → Str) (r : Route) : (r.behind beyond).Alike r :=
  ⟨r.behind_key beyond, rfl, rfl⟩

theorem Route.Alike.chars {x r : Route} (h : x.Alike r) :
    x.method.chars = r.method.chars ∧ x.uri.chars = r.uri.chars :=
  Prod.mk.inj (toLex.injective h.key)

theorem Route.Alike.outcome {x r : Route} (h : x.Alike r) (req : Request) :
    (x.handle req).outcome = (r.handle req).outcome := by
  have hauth : x.authorised req = r.authorised req := by rw [authorised, authorised, h.auth]
  unfold handle
  rw [h.auth, hauth]
  split
  · rfl
  · simp only [Handled.outcome, List.map_singleton, h.func]

/-- Routes changed into alike ones have the same outcome, matched by their characters. -/
theorem outcome_map {regex : Regex} {req : Request} {f : Route → Route} {l : List Route}
    (h : ∀ r ∈ l, (f r).Alike r) :
    (Router.handleBy (Router.matchesChars regex req) req (l.map f)).outcome =
      (Router.handleBy (Router.matchesChars regex req) req l).outcome := by
  have hp : ∀ r ∈ l, Router.matchesChars regex req (f r) = Router.matchesChars regex req r := fun r hr => by
    obtain ⟨hm, hu⟩ := (h r hr).chars
    rw [Router.matchesChars, Router.matchesChars, hm, hu]
  rw [Router.handleBy, Router.handleBy, SortedSet.scan_map, SortedSet.scan_congr hp]
  cases hscan : SortedSet.scan (Router.matchesChars regex req) l with
  | error e => rfl
  | ok o =>
    cases o with
    | none => rfl
    | some r =>
      obtain ⟨as, bs, hl, -⟩ := SortedSet.scan_eq_some.mp hscan
      exact (h r (by rw [hl]; simp)).outcome req

/-- The routes with one replaced by another of its key. -/
theorem routes_replace {s : Router} {r x : Route} (hr : r ∈ s.routes) (hk : x.key = r.key) :
    ((s.del r).add x).routes.toList = s.routes.toList.map fun y => if y.key = r.key then x else y := by
  have hf : ∀ y : Route, (if y.key = r.key then x else y).key = y.key := fun y => by
    split
    · rename_i h
      exact hk.trans h.symm
    · rfl
  refine SortedSet.sorted_ext ((s.del r).add x).routes.sorted
    (s.routes.mapKey (fun y => if y.key = r.key then x else y) hf).sorted fun c => ?_
  have hno : ∀ b ∈ (s.del r).routes, b.key ≠ x.key := fun b hb => hk ▸ (SortedSet.mem_erase.mp hb).2
  refine Iff.trans SortedSet.mem_insert (Iff.trans ?_ (SortedSet.mem_mapKey hf).symm)
  constructor
  · rintro (hc | ⟨rfl, -⟩)
    · obtain ⟨hcs, hck⟩ := SortedSet.mem_erase.mp hc
      exact ⟨c, hcs, if_neg hck⟩
    · exact ⟨r, hr, if_pos rfl⟩
  · rintro ⟨y, hy, rfl⟩
    by_cases hyk : y.key = r.key
    · rw [if_pos hyk]
      exact Or.inr ⟨rfl, hno⟩
    · rw [if_neg hyk]
      exact Or.inl (SortedSet.mem_erase.mpr ⟨hy, hyk⟩)

/-- **Matched by the characters, a route may be replaced by one with the same
characters in another buffer.** -/
theorem outcome_replace {s : Router} {r x : Route} (hr : r ∈ s.routes) (hx : x.Alike r) (beyond : Route → Str)
    (regex : Regex) (req : Request) :
    ((((s.del r).add x).behind beyond).handleExactly regex req).outcome =
      ((s.behind beyond).handleExactly regex req).outcome := by
  -- each route of the new router, and of the old one, is alike to its old self
  have halike : ∀ y ∈ s.routes.toList, ((if y.key = r.key then x else y).behind beyond).Alike y := fun y hy => by
    have hself := Route.alike_behind beyond (if y.key = r.key then x else y)
    by_cases hyk : y.key = r.key
    · have hyr : y = r := Option.some.inj
        ((SortedSet.get_eq_some.mpr ⟨hy, hyk⟩).symm.trans (SortedSet.get_eq_some.mpr ⟨hr, rfl⟩))
      rw [if_pos hyk] at hself ⊢
      rw [hyr]
      exact ⟨hself.key.trans hx.key, hself.func.trans hx.func, hself.auth.trans hx.auth⟩
    · rw [if_neg hyk] at hself ⊢
      exact hself
  have hnew : (((s.del r).add x).behind beyond).routes.toList =
      s.routes.toList.map fun y => (if y.key = r.key then x else y).behind beyond := by
    refine (congrArg (List.map (Route.behind beyond)) (routes_replace hr hx.key)).trans ?_
    rw [List.map_map]
    rfl
  have hold : (s.behind beyond).routes.toList = s.routes.toList.map (Route.behind beyond) := rfl
  rw [Router.handleExactly, Router.handleExactly, hnew, hold, outcome_map halike,
    outcome_map fun y _ => Route.alike_behind beyond y]

/-- A request that the route admits and that only its uri decides. -/
def Route.probe (r : Route) : Request where
  method := r.method.chars
  headers := (∅ : Headers).insert (str "authorization", r.auth.chars)

/-- The pattern that is the text `s`, and no other, matches everything. -/
def only (s : Str) : Regex := fun pattern => some fun _ => decide (pattern = s)

/-- Matched by the characters, the route with the text as its uri is found. -/
theorem handleExactly_probe {s : Router} {r : Route} (hr : r ∈ s.routes) :
    (r, r.probe) ∈ (s.handleExactly (only r.uri.chars) r.probe).calls := by
  have hmatch : ∀ b : Route, Router.matchesChars (only r.uri.chars) r.probe b =
      .ok (decide (r.method.chars = b.method.chars) && decide (b.uri.chars = r.uri.chars)) := fun _ => rfl
  have hscan : SortedSet.scan (Router.matchesChars (only r.uri.chars) r.probe) s.routes.toList = .ok (some r) := by
    refine SortedSet.scan_toList_eq_some.mpr ⟨hr, by simp [hmatch], fun b hb hlt => ?_⟩
    have hne : ¬ (r.method.chars = b.method.chars ∧ b.uri.chars = r.uri.chars) := fun h => by
      have hkey : b.key = r.key := by rw [Route.key, Route.key, ← h.1, h.2]
      exact absurd hlt (hkey ▸ lt_irrefl _)
    rw [hmatch]
    simpa using hne
  have hadmits : Admits r r.probe := Or.inr (SortedSet.mem_insert.mpr (Or.inr ⟨rfl, fun b hb => absurd hb
    (SortedSet.notMem_empty b)⟩))
  rw [Router.handleExactly, Router.handleBy, hscan]
  simp only [Route.handle_admits hadmits, List.mem_singleton]

/-- **Requests are matched by exactly the characters of the uri views, whatever
is behind their buffers, exactly if all views are terminated**; and then a route
may be replaced by one with the same characters in another buffer. -/
theorem matches_exactly_iff (s : Router) :
    ((∀ beyond regex req, (s.behind beyond).handle regex req = (s.behind beyond).handleExactly regex req) ↔
        ∀ r ∈ s.routes, r.uri.Terminated) ∧
      ((∀ r ∈ s.routes, r.uri.Terminated) → ∀ r ∈ s.routes, ∀ x : Route, x.Alike r → x.uri.Terminated →
        ∀ beyond regex req, ((((s.del r).add x).behind beyond).handle regex req).outcome =
          ((s.behind beyond).handle regex req).outcome) := by
  refine ⟨⟨fun h r hr => ?_, fun h => Router.handle_behind h⟩, fun h r hr x hx hxt beyond regex req => ?_⟩
  · -- a byte behind the buffer that no pattern has
    have hmem : r.behind (fun _ => [1]) ∈ (s.behind fun _ => [1]).routes :=
      (SortedSet.mem_mapKey (Route.behind_key fun _ => [1])).mpr ⟨r, hr, rfl⟩
    have hcalls := handleExactly_probe hmem
    rw [← h] at hcalls
    obtain ⟨-, ⟨-, ⟨-, rgx, hrgx, htrue⟩, -⟩, -⟩ := mem_calls.mp hcalls
    obtain rfl := Option.some.inj hrgx
    have hdata := of_decide_eq_true htrue
    rw [Route.behind, View.extend_chars] at hdata
    exact View.terminated_of_data hdata
  · have hterm : ∀ y ∈ ((s.del r).add x).routes, y.uri.Terminated := fun y hy => by
      rw [SortedSet.mem_def, routes_replace hr hx.key] at hy
      obtain ⟨z, hz, rfl⟩ := List.mem_map.mp hy
      split
      · exact hxt
      · exact h z hz
    rw [Router.handle_behind hterm, Router.handle_behind h]
    exact outcome_replace hr hx beyond regex req

/-- The text `/a` as the start of a longer text. -/
def longView : View := ⟨str "/abc" ++ [0], 0, 2, by decide⟩

/-- The text `/a` inside a longer buffer, with a NUL behind it. -/
def innerView : View := ⟨str "x/a" ++ [0] ++ str "y", 1, 2, by decide⟩

theorem matches_exactly_iff_inner :
    ∀ beyond regex req,
      (((((({} : Router).add getRoute).del getRoute).add (plainRoute (.literal (str "GET")) innerView)).behind
          beyond).handle regex req).outcome =
        (((({} : Router).add getRoute).behind beyond).handle regex req).outcome :=
  (matches_exactly_iff (({} : Router).add getRoute)).2
    (fun r hr => by
      rw [List.mem_singleton.mp hr]
      exact ⟨by decide, by decide⟩)
    getRoute (List.mem_singleton.mpr rfl) (plainRoute (.literal (str "GET")) innerView) ⟨by decide, rfl, rfl⟩
    ⟨by decide, by decide⟩

/-- A route is replaced by an alike one whose uri is the start of a longer text,
and the request is no longer found. -/
theorem longer_buffer_changes_outcome :
    (plainRoute (.literal (str "GET")) longView).Alike getRoute ∧
      ((({} : Router).add getRoute).handle plainRegex getRequest).result.toOption.map Response.code = some 200 ∧
      ((({} : Router).add (plainRoute (.literal (str "GET")) longView)).handle plainRegex
        getRequest).result.toOption.map Response.code = some 404 :=
  ⟨⟨by decide, rfl, rfl⟩, rfl, rfl⟩

end NiceHttp
