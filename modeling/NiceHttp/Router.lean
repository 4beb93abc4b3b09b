/-
# Routes and the router

`Route` and `Router`. The text fields of a route are `std::string_view`s into
buffers (`View`): the set compares their characters, while the pattern of a
route is what a C function finds at `uri.data()`.

`std::regex` and `regex_match` are a parameter: a `Regex` takes a pattern to
nothing (the constructor throws) or to the texts it matches. A call of
`handle` is described by the callbacks it invoked and its result (`Handled`).

`Router::handle` builds the pattern of every route it passes, before it looks
at the method: so it throws at the first route in the order of the set whose
pattern is invalid, if it has not stopped before (`find_eq_some`).

Key definitions: `View`, `Route`, `Route.handle`, `Router`, `Router.handle`,
`Selected`, `Admits`.
Key theorems: `find_eq_some`, `mem_calls`, `result_ok`.
-/
import NiceHttp.Response
import Mathlib.Data.Prod.Lex

namespace NiceHttp

open CString

/-- A `std::string_view`: a part of a buffer. -/
structure View where
  buffer : Str
  start : ℕ
  size : ℕ
  fits : start + size ≤ buffer.length

namespace View

/-- The characters of the view. -/
def chars (v : View) : Str := (v.buffer.drop v.start).take v.size

/-- The C string at `data()`. -/
def data (v : View) : Str := cstr (v.buffer.drop v.start)

/-- The view of a string literal, which a NUL follows. -/
def literal (s : Str) : View := ⟨s ++ [0], 0, s.length, by simp⟩

end View

/-- `std::regex` and `regex_match`: the pattern is rejected, or matches a text.
That `regex_match` returns is assumed: on some texts the library may throw
`error_stack` or `error_complexity` instead. -/
abbrev Regex := Str → Option (Str → Bool)

/-- `Route`. -/
structure Route where
  func : Request → Except Exn Response
  method : View
  uri : View
  auth : View := .literal []

/-- The callbacks a call invoked, with their arguments, and its result. -/
structure Handled where
  calls : List (Route × Request)
  result : Except Exn Response

namespace Route

/-- What `operator<` compares. -/
def key (r : Route) : Str ×ₗ Str := toLex (r.method.chars, r.uri.chars)

/-- The answer to a request without the token. -/
def unauthorized : Response :=
  { code := 401, message := str "Unauthorized", proto := protoHttp1, headers := ∅, isJson := false,
    contentLength := 0 }

/-- Some header is the token. -/
def authorised (r : Route) (req : Request) : Bool :=
  req.headers.toList.any fun h => h.1 = str "authorization" ∧ h.2 = r.auth.chars

/-- `Route::handle`. -/
def handle (r : Route) (req : Request) : Handled :=
  if r.auth.chars ≠ [] ∧ r.authorised req = false then
    { calls := [], result := .ok unauthorized }
  else
    { calls := [(r, req)], result := r.func req }

end Route

/-- `Router`. -/
structure Router where
  routes : SortedSet Route Route.key := ∅

namespace Router

/-- `Router::add`. -/
def add (s : Router) (route : Route) : Router := { s with routes := s.routes.insert route }

/-- `Router::del`. -/
def del (s : Router) (route : Route) : Router := { s with routes := s.routes.erase route.key }

variable (regex : Regex) (s : Router) (req : Request)

/-- The predicate `match`: the pattern first, then the method. -/
def isMatch (r : Route) : Except Exn Bool :=
  match regex r.uri.data with
  | none => .error .regexError
  | some rgx => .ok (decide (req.method = r.method.chars) && rgx req.uri)

/-- `std::ranges::find_if(this->routes, match)`. -/
def find : Except Exn (Option Route) := SortedSet.scan (isMatch regex req) s.routes.toList

/-- The answer to a request that no route takes. -/
def notFound : Response :=
  { code := 404, message := str "Not Found", proto := protoHttp1, headers := ∅, isJson := false,
    contentLength := 0 }

/-- `Router::handle`. -/
def handle : Handled :=
  match s.find regex req with
  | .error e => { calls := [], result := .error e }
  | .ok (some r) => r.handle req
  | .ok none => { calls := [], result := .ok notFound }

end Router

/-! ### The scan -/

section Scan

variable {regex : Regex} {s : Router} {req : Request} {r : Route}

/-- The pattern of the route is valid. -/
def Valid (regex : Regex) (r : Route) : Prop := (regex r.uri.data).isSome

/-- The route takes the request. -/
def Takes (regex : Regex) (req : Request) (r : Route) : Prop :=
  req.method = r.method.chars ∧ ∃ rgx, regex r.uri.data = some rgx ∧ rgx req.uri = true

theorem isMatch_true : Router.isMatch regex req r = .ok true ↔ Takes regex req r := by
  unfold Router.isMatch Takes
  cases regex r.uri.data with
  | none => simp
  | some rgx => simp

theorem isMatch_false : Router.isMatch regex req r = .ok false ↔ Valid regex r ∧ ¬ Takes regex req r := by
  unfold Router.isMatch Takes Valid
  cases regex r.uri.data with
  | none => simp
  | some rgx => simp

/-- The route takes the request, and every route before it has a valid pattern
and does not. -/
def Selected (regex : Regex) (s : Router) (req : Request) (r : Route) : Prop :=
  r ∈ s.routes ∧ Takes regex req r ∧ ∀ x ∈ s.routes, x.key < r.key → Valid regex x ∧ ¬ Takes regex req x

/-- All patterns are valid, and no route takes the request. -/
def Untaken (regex : Regex) (s : Router) (req : Request) : Prop :=
  ∀ x ∈ s.routes, Valid regex x ∧ ¬ Takes regex req x

/-- **The route that the scan stops at.** -/
theorem find_eq_some : s.find regex req = .ok (some r) ↔ Selected regex s req r := by
  unfold Router.find Selected
  simp only [SortedSet.scan_toList_eq_some, isMatch_true, isMatch_false]

theorem find_eq_none : s.find regex req = .ok none ↔ Untaken regex s req := by
  unfold Router.find Untaken
  simp only [SortedSet.scan_eq_none, isMatch_false, SortedSet.mem_def]

theorem find_ok (h : ∀ x ∈ s.routes, Valid regex x) : ∃ r, s.find regex req = .ok r := by
  refine SortedSet.scan_ok fun x hx => ?_
  obtain ⟨rgx, hr⟩ := Option.isSome_iff_exists.mp (h x hx)
  exact ⟨_, by rw [Router.isMatch, hr]⟩

end Scan

/-! ### The token -/

/-- The route asks for no token, or the request has it. -/
def Admits (r : Route) (req : Request) : Prop :=
  r.auth.chars = [] ∨ (str "authorization", r.auth.chars) ∈ req.headers

theorem authorised_iff {r : Route} {req : Request} :
    r.authorised req = true ↔ (str "authorization", r.auth.chars) ∈ req.headers := by
  unfold Route.authorised
  rw [List.any_eq_true]
  constructor
  · rintro ⟨h, hh, he⟩
    obtain ⟨h1, h2⟩ := of_decide_eq_true he
    rw [← h1, ← h2]
    exact hh
  · intro h
    exact ⟨_, h, by simp⟩

theorem Route.handle_admits {r : Route} {req : Request} (h : Admits r req) :
    r.handle req = { calls := [(r, req)], result := r.func req } := by
  unfold handle
  rw [if_neg]
  rintro ⟨h1, h2⟩
  rcases h with h | h
  · exact h1 h
  · rw [authorised_iff.mpr h] at h2
    cases h2

theorem Route.handle_denied {r : Route} {req : Request} (h : ¬ Admits r req) :
    r.handle req = { calls := [], result := .ok unauthorized } := by
  unfold handle
  rw [if_pos]
  refine ⟨fun h1 => h (Or.inl h1), ?_⟩
  rw [Bool.eq_false_iff]
  exact fun h2 => h (Or.inr (authorised_iff.mp h2))

/-! ### The whole call -/

section Handle

variable {regex : Regex} {s : Router} {req : Request}

/-- **The callback that is invoked** is that of the selected route, if it
admits the request, and on that request. -/
theorem mem_calls {c : Route × Request} :
    c ∈ (s.handle regex req).calls ↔ c.2 = req ∧ Selected regex s req c.1 ∧ Admits c.1 req := by
  simp only [← find_eq_some, Router.handle]
  obtain ⟨r, q⟩ := c
  cases s.find regex req with
  | error e => simp
  | ok o =>
    cases o with
    | none => simp
    | some x =>
      simp only [Except.ok.injEq, Option.some.injEq]
      by_cases hx : Admits x req
      · rw [Route.handle_admits hx]
        simp only [List.mem_singleton, Prod.mk.injEq]
        constructor
        · rintro ⟨rfl, rfl⟩
          exact ⟨rfl, rfl, hx⟩
        · rintro ⟨rfl, rfl, -⟩
          exact ⟨rfl, rfl⟩
      · rw [Route.handle_denied hx]
        simp only [List.not_mem_nil, false_iff]
        rintro ⟨-, rfl, hr⟩
        exact hx hr

/-- **When a call answers**: a route is selected and its callback returns, if
it is invoked; or no route takes the request. An invalid pattern that the scan
comes to makes it throw. -/
theorem result_ok :
    (∃ resp, (s.handle regex req).result = .ok resp) ↔
      (∃ r, Selected regex s req r ∧ (Admits r req → ∃ resp, r.func req = .ok resp)) ∨ Untaken regex s req := by
  simp only [← find_eq_some, ← find_eq_none, Router.handle]
  cases s.find regex req with
  | error e => simp
  | ok o =>
    cases o with
    | none => simp
    | some x =>
      simp only [Except.ok.injEq, Option.some.injEq, exists_eq_left', reduceCtorEq, or_false]
      by_cases hx : Admits x req
      · rw [Route.handle_admits hx]
        exact ⟨fun h _ => h, fun h => h hx⟩
      · rw [Route.handle_denied hx]
        exact ⟨fun _ hr => absurd hr hx, fun _ => ⟨_, rfl⟩⟩

end Handle

/-! ### The route of the demo server -/

def demoRoute : Route where
  func := fun _ => .ok
    { code := 200, message := str "OK", proto := protoHttp1, isJson := true, contentLength := 16,
      body := str "\x7b\"status\": \"OK\"\x7d" }
  method := .literal (str "GET")
  uri := .literal (str "/test/[0-9]")
  auth := .literal (str "apptoken123")

/-- The pattern of the demo route, and patterns that are plain text. -/
def demoRegex : Regex := fun pattern =>
  if pattern = str "/test/[0-9]" then
    some fun uri => decide (∃ d ∈ str "0123456789", uri = str "/test/" ++ [d])
  else some fun uri => decide (uri = pattern)

end NiceHttp
