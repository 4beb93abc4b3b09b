/-
# Authentication, from the bytes of the head to the callback

A route with a token asks for the header `authorization`. What the header map
holds under a name other than the two special ones is the first line of the
head with that name in lower case (`get_read`); lines without `": "` and later
lines of the name do not count. So the callback of a selected route is invoked
exactly if that line carries the token, and otherwise no callback is
(`authentication`).

Key definitions: `headerLines`, `firstNamed`, `Presents`.
Key theorems: `get_read`, `authentication`.
-/
import NiceHttp.Routing

namespace NiceHttp

open CString Text

/-- The LF-separated lines of a head after its first CRLF. -/
def headerLines (head : Str) : List Str :=
  match find (str "\r\n") head with
  | none => []
  | some i => splitView (ch '\n') (head.drop (i + 2))

/-- The first line that has a `": "` and the name, in lower case, before it. -/
def firstNamed (name : Str) (lines : List Str) : Option Str := lines.find? fun l => fieldName l = some name

/-- The head presents the token: its first `authorization` line has the token
as its value. -/
def Presents (head token : Str) : Prop :=
  ∃ l, firstNamed (str "authorization") (headerLines head) = some l ∧ fieldValue l = token

/-- A line goes into the map under a name that is not special exactly if it
has the name. -/
theorem header_field {name : Str} (h1 : name ≠ str "content-length") (h2 : name ≠ str "content-type")
    (l : Str) : ((field l).header?.any fun e => e.1 = name) = decide (fieldName l = some name) ∧
      (fieldName l = some name → (field l).header? = some (name, fieldValue l)) := by
  unfold field
  cases hn : fieldName l with
  | none => simp [Field.header?]
  | some key =>
    by_cases hk : key = name
    · subst hk
      simp [h1, h2, Field.header?]
    · simp only [Option.some.injEq, hk, false_imp_iff, and_true]
      split
      · simp [Field.header?]
      · split
        · simp [Field.header?]
        · simp [Field.header?, hk]

/-- **What the map holds under an ordinary name is its first line.** -/
theorem get_read {name : Str} (h1 : name ≠ str "content-length") (h2 : name ≠ str "content-type")
    (proto headerstr : Str) :
    (({ proto := proto } : Message).read headerstr).headers.get name =
      (firstNamed name (splitView (ch '\n') headerstr)).map fun l => (name, fieldValue l) := by
  unfold Message.read firstNamed
  rw [foldl_put_headers, SortedSet.get_insertAll, SortedSet.get_empty, Option.none_or]
  induction splitView (ch '\n') headerstr with
  | nil => rfl
  | cons l ls ih =>
    obtain ⟨hany, hentry⟩ := header_field h1 h2 l
    rw [List.map_cons]
    by_cases hl : fieldName l = some name
    · rw [List.filterMap_cons_some (hentry hl), List.find?_cons_of_pos (by simp),
        List.find?_cons_of_pos (by simpa using hl)]
      rfl
    · rw [List.find?_cons_of_neg (by simpa using hl), ← ih]
      cases he : (field l).header? with
      | none => rw [List.filterMap_cons_none he]
      | some e =>
        rw [he] at hany
        rw [List.filterMap_cons_some he, List.find?_cons_of_neg]
        simpa [hl] using hany

/-- A parsed request has the token exactly if its head presents it. -/
theorem mem_parsed {head body : Str} {req : Request} {out : List Str}
    (h : Request.ofHeadBody head body = .ok (req, out)) (token : Str) :
    (str "authorization", token) ∈ req.headers ↔ Presents head token := by
  unfold Presents headerLines
  cases hf : find (str "\r\n") head with
  | none =>
    rw [Request.ofHeadBody_none hf] at h
    obtain ⟨rfl, -⟩ := Prod.mk.inj (Except.ok.inj h)
    simp only [firstNamed, List.find?_nil, reduceCtorEq, false_and, exists_false, iff_false]
    exact SortedSet.notMem_empty _
  | some i =>
    rw [Request.ofHeadBody_some hf] at h
    obtain ⟨rfl, -⟩ := Prod.mk.inj (Except.ok.inj h)
    have hname : str "authorization" ≠ str "content-length" ∧ str "authorization" ≠ str "content-type" := by
      decide
    have hget := get_read hname.1 hname.2
      (Request.readWords (head.take i)).proto (head.drop (i + 2))
    have hmem : (str "authorization", token) ∈ (Request.built head i body).headers ↔
        (({ proto := (Request.readWords (head.take i)).proto } : Message).read
          (head.drop (i + 2))).headers.get (str "authorization") = some (str "authorization", token) := by
      rw [SortedSet.get_eq_some, Request.built, parsed_headers]
      simp
    rw [hmem, hget, Option.map_eq_some_iff]
    simp

/-- **Authentication.** If `handle` selects a route with a token for a parsed
request, the callback is invoked exactly if the head presents the token;
otherwise the answer is the 401 and no callback is invoked. -/
theorem authentication (regex : Regex) (ops : List RouteOp) (head body : Str) (req : Request)
    (out : List Str) (h : Request.ofHeadBody head body = .ok (req, out)) (r : Route)
    (hr : (Router.run ops).find regex req = .ok (some r)) (ha : r.auth.chars ≠ []) :
    ((r, req) ∈ ((Router.run ops).handle regex req).calls ↔ Presents head r.auth.chars) ∧
      (Presents head r.auth.chars →
        (Router.run ops).handle regex req = { calls := [(r, req)], result := r.func req }) ∧
      (¬ Presents head r.auth.chars →
        (Router.run ops).handle regex req = { calls := [], result := .ok Route.unauthorized }) := by
  have hhandle : (Router.run ops).handle regex req = r.handle req := by
    rw [Router.handle, hr]
  have hadmits : Admits r req ↔ Presents head r.auth.chars := by
    rw [Admits, mem_parsed h]
    simp [ha]
  rw [hhandle]
  by_cases hp : Presents head r.auth.chars
  · rw [Route.handle_admits (hadmits.mpr hp)]
    simp [hp]
  · rw [Route.handle_denied fun hr => hp (hadmits.mp hr)]
    simp [hp]

theorem authentication_demo :
    ∃ req out, Request.ofHeadBody (str "GET /test/2 HTTP/1.1\r\nAuthorization: apptoken123\r\n\r\n") [] =
        .ok (req, out) ∧
      (Router.run [.add demoRoute]).handle demoRegex req =
        { calls := [(demoRoute, req)], result := demoRoute.func req } :=
  ⟨_, _, rfl, (authentication demoRegex [.add demoRoute]
    (str "GET /test/2 HTTP/1.1\r\nAuthorization: apptoken123\r\n\r\n") [] _ _ rfl demoRoute rfl
    (by decide)).2.1 ⟨_, rfl, by decide⟩⟩

end NiceHttp
