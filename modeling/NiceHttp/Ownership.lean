/-
# Who owns the sockets

A descriptor field is live if its socket is still open, and stale if it is
closed: a `request` that succeeds closes its socket and keeps the descriptor.
A `request` over a live client field loses that socket, `cleanup` with a stale
one closes a descriptor that is not open (or another's), a failed `connect`
closes the server's socket too, and a `start` over a server field loses the
server's socket.

An object whose calls avoid the four (`Careful`), and whose client field is
not stale at the end, owns its sockets well (`sockets_closed_once`): every
socket is closed once, no `close` misses, and no `request` touches the
server's socket. One successful request is enough for the destructor to close
a descriptor twice (`request_then_destructor`).

Key definitions: `NiceHTTP.Live`, `NiceHTTP.Stale`, `NiceHTTP.Careful`,
`NiceHTTP.Sound`.
Key theorems: `NiceHTTP.Sound.next`, `sockets_closed_once`.
-/
import NiceHttp.Sockets

namespace NiceHttp

open CString Run Handles

namespace NiceHTTP

/-- The field has a socket that is open. -/
def Live (s : NiceHTTP) (field : Option Socket) : Prop := ∃ h, field = some h ∧ s.table.names h.fd = some h.sock

/-- The field has a socket that is closed. -/
def Stale (s : NiceHTTP) (field : Option Socket) : Prop := ∃ h, field = some h ∧ s.table.names h.fd ≠ some h.sock

/-- A `request` finds the client field without an open socket, and its
`connect` fails only if there is no server socket; a `start` finds no server
socket, and fails only if the client field is not stale. -/
def Careful (s : NiceHTTP) : Call → Prop
  | .request _ host port _ p =>
    ¬ s.Live s.clientSocket ∧
      (∀ ip, p.socket.isSome → p.address host = some ip → p.connect ip port = false → s.serverSocket = none)
  | .start iface port host =>
    s.serverSocket = none ∧
      (host.socket.isSome → (host.bind iface port && host.listen) = false → ¬ s.Stale s.clientSocket)

/-- The open sockets are those of the fields; the server field is live, and
the two fields have different sockets. -/
structure Sound (s : NiceHTTP) : Prop where
  exact : Exact s.table
  server : ∀ h, s.serverSocket = some h → s.table.names h.fd = some h.sock
  client : ∀ h, s.clientSocket = some h → h.sock < s.table.issued
  held : ∀ fd n, s.table.names fd = some n → s.serverSocket = some ⟨fd, n⟩ ∨ s.clientSocket = some ⟨fd, n⟩
  apart : ∀ h h', s.serverSocket = some h → s.clientSocket = some h' → h.sock ≠ h'.sock

variable {s s' : NiceHTTP}

theorem sound_init : Sound {} := ⟨exact_empty, nofun, nofun, nofun, nofun⟩

/-! ### Closing -/

theorem Sound.closeServer (hs : Sound s) : Sound s.closeServer := by
  unfold NiceHTTP.closeServer
  cases hserver : s.serverSocket with
  | none => exact hs
  | some h =>
    have hlive := hs.server h hserver
    refine ⟨hs.exact.release hlive, nofun, hs.client, fun fd n hn => ?_, nofun⟩
    have hne : fd ≠ h.fd := by
      rintro rfl
      simp only [Table.release_names_self] at hn
      cases hn
    simp only [s.table.release_names_ne hne] at hn
    refine Or.inr ((hs.held fd n hn).resolve_left fun he => hne ?_)
    rw [Option.some.inj (hserver.symm.trans he)]

/-- Closing the server's socket does not make the client field stale. -/
theorem Sound.stale_closeServer (hs : Sound s) (hc : ¬ s.Stale s.clientSocket) :
    ¬ s.closeServer.Stale s.closeServer.clientSocket := by
  unfold NiceHTTP.closeServer
  cases hserver : s.serverSocket with
  | none => exact hc
  | some h =>
    rintro ⟨h', hclient, hstale⟩
    refine hc ⟨h', hclient, fun hn => hstale ?_⟩
    have hne : h'.fd ≠ h.fd := by
      intro he
      have hlive := hs.server h hserver
      rw [← he, hn] at hlive
      exact hs.apart h h' hserver hclient (Option.some.inj hlive).symm
    rw [← hn]
    exact s.table.release_names_ne hne

theorem Sound.closeClient (hs : Sound s) (hc : ¬ s.Stale s.clientSocket) : Sound s.closeClient := by
  unfold NiceHTTP.closeClient
  cases hclient : s.clientSocket with
  | none => exact hs
  | some h =>
    have hlive : s.table.names h.fd = some h.sock := by
      by_contra hn
      exact hc ⟨h, hclient, hn⟩
    refine ⟨hs.exact.release hlive, fun h' hserver => ?_, nofun, fun fd n hn => ?_, nofun⟩
    · have hne : h'.fd ≠ h.fd := by
        intro he
        have hserver' := hs.server h' hserver
        rw [he, hlive] at hserver'
        exact hs.apart h' h hserver hclient (Option.some.inj hserver').symm
      rw [← hs.server h' hserver]
      exact s.table.release_names_ne hne
    · have hne : fd ≠ h.fd := by
        rintro rfl
        simp only [Table.release_names_self] at hn
        cases hn
      simp only [s.table.release_names_ne hne] at hn
      refine Or.inl ((hs.held fd n hn).resolve_right fun he => hne ?_)
      rw [Option.some.inj (hclient.symm.trans he)]

@[simp] theorem serverSocket_closeServer (s : NiceHTTP) : s.closeServer.serverSocket = none := by
  unfold NiceHTTP.closeServer
  split
  · rfl
  · assumption

@[simp] theorem serverSocket_closeClient (s : NiceHTTP) : s.closeClient.serverSocket = s.serverSocket := by
  unfold NiceHTTP.closeClient
  split <;> rfl

@[simp] theorem clientSocket_closeClient (s : NiceHTTP) : s.closeClient.clientSocket = none := by
  unfold NiceHTTP.closeClient
  split
  · rfl
  · assumption

@[simp] theorem serverSocket_cleanup (s : NiceHTTP) : s.cleanup.serverSocket = none := by simp [NiceHTTP.cleanup]

@[simp] theorem clientSocket_cleanup (s : NiceHTTP) : s.cleanup.clientSocket = none := by simp [NiceHTTP.cleanup]

/-- **A cleanup without a stale field** closes what is open. -/
theorem Sound.cleanup (hs : Sound s) (hc : ¬ s.Stale s.clientSocket) :
    Sound s.cleanup ∧ ∀ fd, s.cleanup.table.names fd = none := by
  have hsound : Sound s.cleanup := hs.closeServer.closeClient (hs.stale_closeServer hc)
  refine ⟨hsound, fun fd => ?_⟩
  cases hn : s.cleanup.table.names fd with
  | none => rfl
  | some n =>
    rcases hsound.held fd n hn with h | h
    · rw [serverSocket_cleanup] at h
      cases h
    · rw [clientSocket_cleanup] at h
      cases h

/-! ### Opening -/

section Open

variable {fd : ℕ} {table : Table ℕ}

/-- A descriptor in use is not the new one. -/
theorem ne_of_acquire (ha : s.table.acquire fd = some table) {d n : ℕ} (h : s.table.names d = some n) : d ≠ fd := by
  rintro rfl
  rw [(Table.acquire_eq ha).1] at h
  cases h

theorem names_of_acquire (ha : s.table.acquire fd = some table) {d n : ℕ} (h : s.table.names d = some n) :
    table.names d = some n := by
  rw [Table.acquire_names ha, if_neg (ne_of_acquire ha h), h]

/-- What is in use is the new socket or was in use. -/
theorem of_names_acquire (ha : s.table.acquire fd = some table) {d n : ℕ} (h : table.names d = some n) :
    d = fd ∧ n = s.table.issued ∨ s.table.names d = some n := by
  rw [Table.acquire_names ha] at h
  split at h
  · exact Or.inl ⟨‹_›, (Option.some.inj h).symm⟩
  · exact Or.inr h

theorem Sound.opened (hs : Sound s) (hl : ¬ s.Live s.clientSocket) (ha : s.table.acquire fd = some table) :
    Sound (s.opened fd table) := by
  have hissued : table.issued = s.table.issued + 1 := by rw [(Table.acquire_eq ha).2]
  refine ⟨hs.exact.acquire ha, fun h hh => names_of_acquire ha (hs.server h hh), fun h hh => ?_,
    fun d n hd => ?_, fun h h' hh hh' => ?_⟩
  · obtain rfl := Option.some.inj hh
    show s.table.issued < table.issued
    omega
  · rcases of_names_acquire ha hd with ⟨rfl, rfl⟩ | hd
    · exact Or.inr rfl
    · exact Or.inl ((hs.held d n hd).resolve_right fun hh => hl ⟨_, hh, hd⟩)
  · obtain rfl := Option.some.inj hh'
    exact (hs.exact.issued (hs.server h hh)).ne

theorem stale_opened (ha : s.table.acquire fd = some table) :
    ¬ (s.opened fd table).Stale (s.opened fd table).clientSocket := by
  rintro ⟨h, hh, hstale⟩
  obtain rfl := Option.some.inj hh
  exact hstale ((Table.acquire_names ha fd).trans (if_pos rfl))

theorem Sound.bound (hs : Sound s) (hserver : s.serverSocket = none) (ha : s.table.acquire fd = some table) :
    Sound (s.bound fd table) := by
  have hissued : table.issued = s.table.issued + 1 := by rw [(Table.acquire_eq ha).2]
  refine ⟨hs.exact.acquire ha, fun h hh => ?_, fun h hh => ?_, fun d n hd => ?_, fun h h' hh hh' => ?_⟩
  · obtain rfl := Option.some.inj hh
    exact (Table.acquire_names ha fd).trans (if_pos rfl)
  · have := hs.client h hh
    show h.sock < table.issued
    omega
  · rcases of_names_acquire ha hd with ⟨rfl, rfl⟩ | hd
    · exact Or.inl rfl
    · refine Or.inr ((hs.held d n hd).resolve_left fun hh => ?_)
      rw [hserver] at hh
      cases hh
  · obtain rfl := Option.some.inj hh
    exact (hs.client h' hh').ne'

theorem stale_bound (hc : ¬ s.Stale s.clientSocket) (ha : s.table.acquire fd = some table) :
    ¬ (s.bound fd table).Stale (s.bound fd table).clientSocket := by
  rintro ⟨h, hh, hstale⟩
  exact hc ⟨h, hh, fun hn => hstale (names_of_acquire ha hn)⟩

/-- The client's socket is closed, and the field keeps it. -/
theorem Sound.answered (hs : Sound (s.opened fd table)) (ha : s.table.acquire fd = some table) (sent) :
    Sound { s.opened fd table with table := table.release fd, sent := sent } := by
  have hfd : table.names fd = some s.table.issued := (Table.acquire_names ha fd).trans (if_pos rfl)
  refine ⟨hs.exact.release hfd, fun h hh => ?_, hs.client, fun d n hd => ?_, hs.apart⟩
  · have hne : h.fd ≠ fd := by
      rintro rfl
      have hserver := hs.server h hh
      exact hs.apart h _ hh rfl (Option.some.inj (hserver.symm.trans hfd))
    exact (table.release_names_ne hne).trans (hs.server h hh)
  · have hne : d ≠ fd := by
      rintro rfl
      simp only [Table.release_names_self] at hd
      cases hd
    simp only [table.release_names_ne hne] at hd
    exact hs.held d n hd

end Open

/-! ### Every call -/

variable {c : Call}

/-- **A careful call keeps the sockets owned.** -/
theorem Sound.next (hs : Sound s) (hok : s.Careful c) (h : Next s c s') : Sound s' := by
  cases h with
  | noSocket =>
    refine ⟨hs.exact, hs.server, nofun, fun fd n hn => ?_, nofun⟩
    exact Or.inl ((hs.held fd n hn).resolve_right fun hh => hok.1 ⟨_, hh, hn⟩)
  | unresolved _ ha => exact hs.opened hok.1 ha
  | refused _ ha => exact ((hs.opened hok.1 ha).cleanup (stale_opened ha)).1
  | threw _ ha =>
    have ho := hs.opened hok.1 ha
    exact ⟨ho.exact, ho.server, ho.client, ho.held, ho.apart⟩
  | answered _ ha => exact (hs.opened hok.1 ha).answered ha _
  | noServer =>
    refine ⟨hs.exact, nofun, hs.client, fun fd n hn => ?_, nofun⟩
    refine Or.inr ((hs.held fd n hn).resolve_left fun hh => ?_)
    rw [hok.1] at hh
    cases hh
  | failed hsock ha hfail =>
    have hc := hok.2 (by rw [hsock]; rfl) hfail
    exact ((hs.bound hok.1 ha).cleanup (stale_bound hc ha)).1
  | served _ ha => exact hs.bound hok.1 ha

/-- The server's socket is as it was: the same in the field, and still open. -/
def SameServer (s s' : NiceHTTP) : Prop :=
  s'.serverSocket = s.serverSocket ∧ ∀ h, s.serverSocket = some h → s'.table.names h.fd = some h.sock

/-- **A careful request leaves the server's socket alone.** -/
theorem Sound.sameServer (hs : Sound s) (hok : s.Careful c) (hreq : c.isRequest) (h : Next s c s') :
    SameServer s s' := by
  cases h with
  | noSocket => exact ⟨rfl, hs.server⟩
  | unresolved _ ha => exact ⟨rfl, (hs.opened hok.1 ha).server⟩
  | refused hsock ha haddr hconn =>
    have hnone : s.serverSocket = none := hok.2 _ (by rw [hsock]; rfl) haddr hconn
    exact ⟨by rw [serverSocket_cleanup, hnone], by rw [hnone]; nofun⟩
  | threw _ ha => exact ⟨rfl, (hs.opened hok.1 ha).server⟩
  | answered _ ha => exact ⟨rfl, ((hs.opened hok.1 ha).answered ha s.sent).server⟩
  | noServer => cases hreq
  | failed => cases hreq
  | served => cases hreq

theorem Sound.step (hs : Sound s) (hok : s.Careful c) (h : step s c = some s') : Sound s' :=
  hs.next hok (next_of_step h)

/-- **Every socket is closed once.** After a run of careful calls and the
destructor, every descriptor that `socket` returned was closed once and no
`close` missed, and no `request` of the run touched the server's socket. -/
theorem sockets_closed_once {calls : List Call} (hok : Always NiceHTTP.step Careful {} calls)
    (hrun : run NiceHTTP.step {} calls = some s) (hend : ¬ s.Stale s.clientSocket) :
    (∀ n < s.cleanup.table.issued, s.cleanup.table.released.count (some n) = 1) ∧
      none ∉ s.cleanup.table.released ∧
      Always NiceHTTP.step (fun t c => ∀ t', NiceHTTP.step t c = some t' → c.isRequest → SameServer t t') {} calls := by
  have hs : Sound s := invariant (fun hI hok h => hI.step hok h) sound_init hok hrun
  obtain ⟨hclean, hnames⟩ := hs.cleanup hend
  refine ⟨fun n hn => hclean.exact.count_eq_one hnames hn, hclean.exact.hit, ?_⟩
  refine Always.imp (fun hI hok h => hI.step hok h) ?_ sound_init hok
  intro t c hI hok t' h hreq
  exact hI.sameServer hok hreq (next_of_step h)

/-- A peer that closes the connection at once. -/
def silentPeer : Peer where
  socket := some 3
  resolve := fun _ => none
  connect := fun _ _ => true
  received := [.eof]

/-- A system that lets the server listen. -/
def openHost : Host where
  socket := some 3
  bind := fun _ _ => true
  listen := true

/-- A peer whose name does not resolve. -/
def unresolvedPeer : Peer where
  socket := some 4
  resolve := fun _ => none
  connect := fun _ _ => true
  received := []

/-- A request that succeeds, a server on the descriptor that it left, and a
request that fails beside the server. -/
def threeCalls : List Call :=
  [.request {} (str "127.0.0.1") 8090 0 silentPeer, .start (str "0.0.0.0") 8080 openHost,
    .request {} (str "localhost") 8090 0 unresolvedPeer]

theorem sockets_closed_once_three :
    ∃ s, run NiceHTTP.step {} threeCalls = some s ∧ s.cleanup.table.released = [some 0, some 1, some 2] ∧
      (∀ n < s.cleanup.table.issued, s.cleanup.table.released.count (some n) = 1) ∧
      none ∉ s.cleanup.table.released ∧
      Always NiceHTTP.step (fun t c => ∀ t', NiceHTTP.step t c = some t' → c.isRequest → SameServer t t') {}
        threeCalls := by
  have haddr : unresolvedPeer.address (str "localhost") = none := by decide
  have hok : Always NiceHTTP.step Careful {} threeCalls := by
    refine .cons rfl ⟨nofun, fun _ _ _ _ => rfl⟩ (.cons rfl ⟨rfl, fun _ h => absurd h (by decide)⟩
      (.cons rfl ⟨?_, fun _ _ h => absurd (haddr.symm.trans h) nofun⟩ trivial))
    -- the descriptor in the client field is the server's now
    rintro ⟨h, hh, hlive⟩
    obtain rfl := Option.some.inj hh
    exact absurd hlive (by decide)
  refine ⟨_, rfl, rfl, sockets_closed_once hok rfl ?_⟩
  rintro ⟨h, hh, hstale⟩
  obtain rfl := Option.some.inj hh
  exact hstale rfl

/-- A request that succeeds, and the destructor: the second `close` misses. -/
theorem request_then_destructor :
    ∃ s, run NiceHTTP.step {} [.request {} (str "127.0.0.1") 8090 0 silentPeer] = some s ∧
      s.cleanup.table.issued = 1 ∧ s.cleanup.table.released = [some 0, none] :=
  ⟨_, rfl, rfl, rfl⟩

end NiceHTTP

end NiceHttp
