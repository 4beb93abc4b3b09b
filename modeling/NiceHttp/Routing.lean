/-
# Routing is a finite map

What `add` and `del` do to the set of routes, said without the set: the live
route of a key is the one passed to the earliest `add` of the key after its
last `del` (`live`, read off the sequence of operations). The set that a
sequence leaves holds exactly the live routes (`get_run`), so `handle` picks
the live route with the least uri among those of the request's method that
take it (`routing`), and adding routes of different keys in another order
leaves the same set (`run_adds_perm`).

Key definitions: `RouteOp`, `Router.run`, `live`, `Candidate`.
Key theorems: `get_run`, `selected_iff`, `routing`.
-/
import NiceHttp.Router
import Mathlib.Data.List.DropRight

namespace NiceHttp

open CString

/-- A call that changes the router. -/
inductive RouteOp where
  | add (route : Route)
  | del (route : Route)

namespace Router

/-- The router after a call. -/
def step (s : Router) : RouteOp → Router
  | .add r => s.add r
  | .del r => s.del r

/-- The router after a sequence of calls. -/
def run (ops : List RouteOp) : Router := ops.foldl step {}

end Router

/-! ### The abstract map -/

/-- The call is a `del` of the key. -/
def RouteOp.isDel (k : Str ×ₗ Str) : RouteOp → Bool
  | .add _ => false
  | .del r => r.key = k

/-- The route of the call, if it is an `add` of the key. -/
def RouteOp.added (k : Str ×ₗ Str) : RouteOp → Option Route
  | .add r => if r.key = k then some r else none
  | .del _ => none

/-- The live route of a key: the earliest that was added after the last `del`
of the key. -/
def live (ops : List RouteOp) (k : Str ×ₗ Str) : Option Route :=
  (ops.rtakeWhile fun op => !op.isDel k).findSome? (RouteOp.added k)

/-- One more call: a `del` of the key ends its route, an `add` counts if the
key has no route. -/
theorem live_concat (ops : List RouteOp) (op : RouteOp) (k : Str ×ₗ Str) :
    live (ops ++ [op]) k = if op.isDel k then none else (live ops k).or (op.added k) := by
  unfold live
  cases hd : op.isDel k with
  | true =>
    rw [List.rtakeWhile_concat_neg _ _ _ (by simp [hd])]
    rfl
  | false =>
    rw [List.rtakeWhile_concat_pos _ _ _ (by simp [hd]), List.findSome?_append]
    simp

/-- **The set holds the live routes.** -/
theorem get_run (ops : List RouteOp) (k : Str ×ₗ Str) : (Router.run ops).routes.get k = live ops k := by
  induction ops using List.reverseRecOn with
  | nil => rfl
  | append_singleton ops op ih =>
    have hrun : Router.run (ops ++ [op]) = (Router.run ops).step op := by
      simp [Router.run, List.foldl_append]
    rw [hrun, live_concat, ← ih]
    cases op with
    | add r =>
      simp only [Router.step, Router.add, SortedSet.get_insert, RouteOp.isDel, RouteOp.added,
        Bool.false_eq_true, if_false]
      by_cases hk : k = r.key
      · rw [if_pos hk, if_pos hk.symm]
        cases (Router.run ops).routes.get k <;> rfl
      · rw [if_neg hk, if_neg (Ne.symm hk), Option.or_none]
    | del r =>
      simp only [Router.step, Router.del, SortedSet.get_erase, RouteOp.isDel, RouteOp.added, Option.or_none,
        decide_eq_true_eq, eq_comm (a := k)]

theorem mem_run {ops : List RouteOp} {r : Route} :
    r ∈ (Router.run ops).routes ↔ live ops r.key = some r := by
  rw [← get_run, SortedSet.get_eq_some]
  simp

/-- A live route was passed to some `add`. -/
theorem add_of_live {ops : List RouteOp} {k : Str ×ₗ Str} {r : Route} (h : live ops k = some r) :
    .add r ∈ ops := by
  obtain ⟨op, hop, hr⟩ := List.exists_of_findSome?_eq_some h
  have hmem : op ∈ ops := (List.rtakeWhile_suffix _ _).subset hop
  cases op with
  | add x =>
    simp only [RouteOp.added] at hr
    split at hr
    · rw [← Option.some.inj hr]
      exact hmem
    · cases hr
  | del x => cases hr

/-! ### The selection -/

/-- A live route of the request's method whose pattern matches all of its uri. -/
def Candidate (regex : Regex) (ops : List RouteOp) (req : Request) (r : Route) : Prop :=
  live ops r.key = some r ∧ r.method.chars = req.method ∧
    ∃ rgx, regex r.uri.data = some rgx ∧ rgx req.uri = true

/-- Among keys of one method the order is that of the uris. -/
theorem key_le {r x : Route} (h : r.method.chars = x.method.chars) : r.key ≤ x.key ↔ r.uri.chars ≤ x.uri.chars := by
  rw [Route.key, Route.key, Prod.Lex.toLex_le_toLex]
  simp [h]

theorem candidate_iff {regex : Regex} {ops : List RouteOp} {req : Request} {r : Route} :
    Candidate regex ops req r ↔ r ∈ (Router.run ops).routes ∧ Takes regex req r := by
  unfold Candidate Takes
  rw [mem_run, eq_comm (a := r.method.chars)]

/-- No answer of a route is the one of the router without route. -/
theorem handle_ne_notFound (r : Route) (req : Request) :
    r.handle req ≠ { calls := [], result := .ok Router.notFound } := by
  intro h
  by_cases hr : Admits r req
  · rw [Route.handle_admits hr] at h
    cases h
  · rw [Route.handle_denied hr] at h
    have hcode := congrArg (fun o : Handled => o.result.toOption.map Response.code) h
    exact absurd hcode (by decide)

/-- Routes of different keys, added in another order, leave the same router. -/
theorem run_adds_perm (pre post : List RouteOp) {rs xs : List Route} (h : rs.Perm xs)
    (hk : rs.Pairwise fun a b => a.key ≠ b.key) :
    Router.run (pre ++ rs.map .add ++ post) = Router.run (pre ++ xs.map .add ++ post) := by
  have hadds : ∀ (l : List Route) (s : Router),
      (l.map RouteOp.add).foldl Router.step s = { routes := s.routes.insertAll l } := by
    intro l
    induction l with
    | nil => exact fun _ => rfl
    | cons a l ih => exact fun s => ih (s.add a)
  simp only [Router.run, List.foldl_append, hadds, SortedSet.insertAll_perm h hk]

/-- A candidate with the least uri. -/
def Least (regex : Regex) (ops : List RouteOp) (req : Request) (r : Route) : Prop :=
  Candidate regex ops req r ∧ ∀ x, Candidate regex ops req x → r.uri.chars ≤ x.uri.chars

section Valid

variable {regex : Regex} {ops : List RouteOp} {req : Request}

/-- With valid patterns the scan does not throw. -/
theorem valid_of_mem (h : ∀ r, .add r ∈ ops → (regex r.uri.data).isSome) {r : Route}
    (hr : r ∈ (Router.run ops).routes) : Valid regex r := h r (add_of_live (mem_run.mp hr))

/-- **The route that is selected** is the candidate with the least uri. -/
theorem selected_iff (h : ∀ r, .add r ∈ ops → (regex r.uri.data).isSome) {r : Route} :
    Selected regex (Router.run ops) req r ↔ Least regex ops req r := by
  constructor
  · rintro ⟨hmem, htakes, hbefore⟩
    refine ⟨candidate_iff.mpr ⟨hmem, htakes⟩, fun x hx => ?_⟩
    obtain ⟨hxm, hxt⟩ := candidate_iff.mp hx
    refine (key_le (htakes.1.symm.trans hxt.1)).mp ?_
    by_contra hlt
    exact (hbefore x hxm (not_le.mp hlt)).2 hxt
  · rintro ⟨hr, hleast⟩
    obtain ⟨hmem, htakes⟩ := candidate_iff.mp hr
    refine ⟨hmem, htakes, fun x hx hlt => ⟨valid_of_mem h hx, fun hxt => ?_⟩⟩
    have hle := hleast x (candidate_iff.mpr ⟨hx, hxt⟩)
    exact absurd ((key_le (htakes.1.symm.trans hxt.1)).mpr hle) (not_le.mpr hlt)

/-- Nothing is found exactly if there is no candidate. -/
theorem untaken_iff (h : ∀ r, .add r ∈ ops → (regex r.uri.data).isSome) :
    Untaken regex (Router.run ops) req ↔ ¬ ∃ r, Candidate regex ops req r := by
  constructor
  · rintro hnone ⟨r, hr⟩
    obtain ⟨hmem, htakes⟩ := candidate_iff.mp hr
    exact (hnone r hmem).2 htakes
  · intro hno x hx
    exact ⟨valid_of_mem h hx, fun hxt => hno ⟨x, candidate_iff.mpr ⟨hx, hxt⟩⟩⟩

/-- One of the two is the case. -/
theorem least_or_none (h : ∀ r, .add r ∈ ops → (regex r.uri.data).isSome) :
    (∃ r, Least regex ops req r) ∨ ¬ ∃ r, Candidate regex ops req r := by
  obtain ⟨o, ho⟩ : ∃ o, (Router.run ops).find regex req = .ok o := find_ok fun x hx => valid_of_mem h hx
  cases o with
  | none => exact Or.inr ((untaken_iff h).mp (find_eq_none.mp ho))
  | some r => exact Or.inl ⟨r, (selected_iff h).mp (find_eq_some.mp ho)⟩

theorem handle_least (h : ∀ r, .add r ∈ ops → (regex r.uri.data).isSome) {r : Route}
    (hr : Least regex ops req r) : (Router.run ops).handle regex req = r.handle req := by
  rw [Router.handle, find_eq_some.mpr ((selected_iff h).mpr hr)]

theorem handle_none (h : ∀ r, .add r ∈ ops → (regex r.uri.data).isSome)
    (hno : ¬ ∃ r, Candidate regex ops req r) :
    (Router.run ops).handle regex req = { calls := [], result := .ok Router.notFound } := by
  rw [Router.handle, find_eq_none.mpr ((untaken_iff h).mpr hno)]

end Valid

/-- **Routing is a finite map.** With valid patterns, `handle` returns what
`Route::handle` returns on the candidate with the least uri, the 404 exactly
when there is no candidate, and the order in which routes of different keys
were added does not matter. -/
theorem routing (regex : Regex) :
    (∀ (ops : List RouteOp) (req : Request), (∀ r, .add r ∈ ops → (regex r.uri.data).isSome) →
      (∀ r, Candidate regex ops req r → (∀ x, Candidate regex ops req x → r.uri.chars ≤ x.uri.chars) →
        (Router.run ops).handle regex req = r.handle req) ∧
      ((∃ r, Candidate regex ops req r) →
        ∃ r, Candidate regex ops req r ∧ ∀ x, Candidate regex ops req x → r.uri.chars ≤ x.uri.chars) ∧
      ((Router.run ops).handle regex req = { calls := [], result := .ok Router.notFound } ↔
        ¬ ∃ r, Candidate regex ops req r)) ∧
    ∀ (pre post : List RouteOp) (rs xs : List Route) (req : Request), rs.Perm xs →
      rs.Pairwise (fun a b => a.key ≠ b.key) →
      (Router.run (pre ++ rs.map .add ++ post)).handle regex req =
        (Router.run (pre ++ xs.map .add ++ post)).handle regex req := by
  refine ⟨fun ops req hvalid => ⟨fun r hr hleast => handle_least hvalid ⟨hr, hleast⟩, fun hex => ?_, ?_⟩, ?_⟩
  · exact (least_or_none hvalid).resolve_right fun hno => hno hex
  · refine ⟨fun h => ?_, handle_none hvalid⟩
    rcases least_or_none hvalid with ⟨r, hr⟩ | hno
    · exact absurd ((handle_least hvalid hr).symm.trans h) (handle_ne_notFound r req)
    · exact hno
  · intro pre post rs xs req h hk
    rw [run_adds_perm pre post h hk]

/-- A route for one of the uris that the demo route takes. -/
def fixedRoute : Route where
  func := fun _ => .ok { code := 204, message := str "No Content", proto := protoHttp1 }
  method := .literal (str "GET")
  uri := .literal (str "/test/2")

/-- Of two routes that take a request the one with the lesser uri answers, though
it was added last; and without it the other one. -/
theorem routing_demo :
    ∃ req : Request, req.method = str "GET" ∧ req.uri = str "/test/2" ∧
      (Router.run [.add demoRoute, .add fixedRoute]).handle demoRegex req = fixedRoute.handle req ∧
      (Router.run [.add demoRoute, .add fixedRoute, .del fixedRoute]).handle demoRegex req = demoRoute.handle req := by
  have hadded : ∀ {ops : List RouteOp} {r : Route}, ops ⊆ [.add demoRoute, .add fixedRoute, .del fixedRoute] →
      .add r ∈ ops → r = demoRoute ∨ r = fixedRoute := fun hops hr => by
    simpa using hops hr
  have hvalid : ∀ {ops : List RouteOp}, ops ⊆ [.add demoRoute, .add fixedRoute, .del fixedRoute] →
      ∀ r, .add r ∈ ops → (demoRegex r.uri.data).isSome := fun hops r hr => by
    rcases hadded hops hr with rfl | rfl <;> rfl
  have hboth : [.add demoRoute, .add fixedRoute] ⊆ [RouteOp.add demoRoute, .add fixedRoute, .del fixedRoute] :=
    List.subset_append_left _ [RouteOp.del fixedRoute]
  refine ⟨{ method := str "GET", uri := str "/test/2" }, rfl, rfl, ?_, ?_⟩
  · refine ((routing demoRegex).1 _ _ (hvalid hboth)).1 fixedRoute ⟨rfl, rfl, _, rfl, by decide⟩ fun x hx => ?_
    rcases hadded hboth (add_of_live hx.1) with rfl | rfl <;> decide
  · refine ((routing demoRegex).1 _ _ (hvalid (List.Subset.refl _))).1 demoRoute ⟨rfl, rfl, _, rfl, by decide⟩
      fun x hx => ?_
    rcases hadded (List.Subset.refl _) (add_of_live hx.1) with rfl | rfl
    · exact le_rfl
    · cases hx.1

end NiceHttp
