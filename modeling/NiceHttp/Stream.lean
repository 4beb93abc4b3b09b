/-
# What a call receives

For any data, NULs among them: `recv_http` ends at the first result that is
the end of the stream, an error, or leaves the last byte of the buffer zero,
and what it returns is the text of all results up to there, each cut at its
first NUL, in their order; the head ends with an empty line if the body is not
empty (`stream_conserved`).

It rests on the buffer, which is all zero at every `recv`: so a failing `recv`
finds a buffer without text, and ends the loop.

Key definitions: `Recv.next`, `RecvResult.Ends`, `RecvResult.text`.
Key theorems: `Recv.run_conserved`.
-/
import NiceHttp.Stop
import NiceHttp.Lib.Run

namespace NiceHttp

open CString Text

/-- The state at the next `recv`, if the loop goes on. -/
def Recv.next (s : Recv) (n : RecvResult) : Option Recv :=
  match s.turn n with
  | .again s' => some s'
  | .done _ _ => none

/-- The buffer after a `recv`, which writes data only. -/
def Block.after (b : Block) : RecvResult → Block
  | .data c => b.write c
  | .eof => b
  | .error => b

/-- The results that end the loop, with the buffer as it is at the `recv`. -/
def RecvResult.Ends (n : RecvResult) (b : Block) : Prop := n = .eof ∨ n = .error ∨ (b.after n).last = 0

/-- The text of a result, up to its first NUL. -/
def RecvResult.text (n : RecvResult) : Str := cstr n.bytes

theorem RecvResult.stops_iff_ends (n : RecvResult) : n.stops = true ↔ n.Ends .zero := by
  cases n with
  | eof => exact ⟨fun _ => Or.inl rfl, fun _ => rfl⟩
  | error => exact ⟨fun _ => Or.inr (Or.inl rfl), fun _ => rfl⟩
  | data c =>
    rw [stops_data]
    constructor
    · exact fun h => Or.inr (Or.inr h)
    · rintro (h | h | h)
      · cases h
      · cases h
      · exact h

/-- The buffer is zeroed at every `recv`. -/
theorem Recv.buff_of_run {ns : List RecvResult} {s : Recv} (h : Run.run next {} ns = some s) : s.buff = .zero := by
  refine Run.history (I := fun _ s => s.buff = .zero) rfl (fun {_ s n s'} _ hn => ?_) ns h
  unfold next at hn
  cases ht : s.turn n with
  | again t =>
    rw [ht] at hn
    obtain rfl : t = s' := Option.some.inj hn
    exact turn_again ht
  | done head body =>
    rw [ht] at hn
    cases hn

/-- With a zeroed buffer the loop ends exactly at a result that ends it. -/
theorem Recv.next_eq_none_iff {s : Recv} (hs : s.buff = .zero) (n : RecvResult) :
    s.next n = none ↔ n.Ends s.buff := by
  rw [hs, ← n.stops_iff_ends, next, turn_eq hs]
  by_cases hn : n.stops = true
  · rw [if_pos hn]
    exact ⟨fun _ => hn, fun _ => rfl⟩
  · rw [if_neg hn]
    exact ⟨nofun, fun h => absurd h hn⟩

/-- The head ends with an empty line as soon as there is a body. -/
theorem append_suffix {s : Str × Str} (h : s.2 ≠ [] → str "\r\n\r\n" <:+ s.1) (b : Str) :
    (Recv.append s b).2 ≠ [] → str "\r\n\r\n" <:+ (Recv.append s b).1 := by
  unfold Recv.append
  split
  · rename_i hs
    exact fun _ => h hs
  · rename_i hs
    split
    · rename_i i hi
      have hlen : (str "\r\n\r\n").length = 4 := rfl
      obtain ⟨t, ht⟩ := find_some hi
      have htake : b.take (i + 4) = b.take i ++ str "\r\n\r\n" := by
        rw [List.take_add, ← ht, ← hlen, List.take_left]
      rw [htake, ← List.append_assoc]
      exact fun _ => List.suffix_append _ _
    · exact fun hne => absurd hne hs

/-- **A run of the loop** ends at the first result that stops it, and has lost
nothing of the text. -/
theorem Recv.run_conserved : ∀ {ns rest : List RecvResult} {s : Recv} {head body : Str}, s.buff = .zero →
    (s.body ≠ [] → str "\r\n\r\n" <:+ s.head) → s.run ns = some ((head, body), rest) →
    ∃ pre n, ns = pre ++ n :: rest ∧ (∀ x ∈ pre, ¬ x.stops = true) ∧ n.stops = true ∧
      head ++ body = s.head ++ s.body ++ (pre ++ [n]).flatMap RecvResult.text ∧
      (body ≠ [] → str "\r\n\r\n" <:+ head)
  | [], _, _, _, _, _, _, h => by cases h
  | n :: ns, rest, s, head, body, hs, hblank, h => by
    have htext := append_text (s.head, s.body) n.text
    have hsuffix := append_suffix (s := (s.head, s.body)) hblank n.text
    rw [run, turn_eq hs] at h
    by_cases hn : n.stops = true
    · rw [if_pos hn] at h
      simp only [Option.some.injEq, Prod.mk.injEq] at h
      obtain ⟨⟨rfl, rfl⟩, rfl⟩ := h
      refine ⟨[], n, rfl, fun x hx => (List.not_mem_nil hx).elim, hn, ?_, hsuffix⟩
      rw [List.nil_append, List.flatMap_singleton]
      exact htext
    · rw [if_neg hn] at h
      obtain ⟨pre, m, rfl, hpre, hm, hconserved, hend⟩ := run_conserved rfl hsuffix h
      refine ⟨n :: pre, m, rfl, List.forall_mem_cons.mpr ⟨hn, hpre⟩, hm, ?_, hend⟩
      calc head ++ body
          = (append (s.head, s.body) n.text).1 ++ (append (s.head, s.body) n.text).2 ++
              (pre ++ [m]).flatMap RecvResult.text := hconserved
        _ = s.head ++ s.body ++ n.text ++ (pre ++ [m]).flatMap RecvResult.text := by rw [htext]
        _ = s.head ++ s.body ++ (n :: pre ++ [m]).flatMap RecvResult.text := by
            rw [List.cons_append, List.flatMap_cons, List.append_assoc]

/-- **`recv_http` conserves the stream.** The buffer is zeroed at every `recv`,
and the loop ends exactly at a result that ends it; so the call waits for more as
long as there was none, and on its return it has used up the results to the
first; the head and the body are their texts, and the head ends with an empty
line if there is a body. -/
theorem stream_conserved (ns : List RecvResult) :
    (∀ pre s, Run.run Recv.next {} pre = some s → s.buff = .zero ∧ ∀ n, s.next n = none ↔ n.Ends s.buff) ∧
      (recvHttp ns = none ↔ ∀ n ∈ ns, ¬ n.Ends .zero) ∧
      ∀ head body rest, recvHttp ns = some ((head, body), rest) →
        ∃ pre n, ns = pre ++ n :: rest ∧ (∀ x ∈ pre, ¬ x.Ends .zero) ∧ n.Ends .zero ∧
          head ++ body = (pre ++ [n]).flatMap RecvResult.text ∧ (body ≠ [] → str "\r\n\r\n" <:+ head) := by
  have hends : ∀ n : RecvResult, ¬ n.stops = true ↔ ¬ n.Ends .zero := fun n => not_congr n.stops_iff_ends
  refine ⟨fun pre s hrun => ⟨Recv.buff_of_run hrun, Recv.next_eq_none_iff (Recv.buff_of_run hrun)⟩, ?_,
    fun head body rest h => ?_⟩
  · exact (Recv.run_eq_none_iff_stops ns rfl).trans (forall₂_congr fun n _ => hends n)
  · obtain ⟨pre, n, hns, hpre, hn, htext, hend⟩ := Recv.run_conserved rfl (fun hne => absurd rfl hne) h
    exact ⟨pre, n, hns, fun x hx => (hends x).mp (hpre x hx), n.stops_iff_ends.mp hn, htext, hend⟩

/-- A packet that does not fill the buffer ends the loop. -/
theorem stream_conserved_packet :
    ∃ pre n, [.data getPacket] = pre ++ n :: [] ∧ (∀ x ∈ pre, ¬ x.Ends .zero) ∧ n.Ends .zero ∧
      str "GET / HTTP/1.1\r\n\r\n" ++ [] = (pre ++ [n]).flatMap RecvResult.text ∧
      (([] : Str) ≠ [] → str "\r\n\r\n" <:+ str "GET / HTTP/1.1\r\n\r\n") :=
  have h : recvHttp [.data getPacket] = some ((str "GET / HTTP/1.1\r\n\r\n", []), []) :=
    (recvHttp_packet getPacket (by decide) (by decide) []).trans (congrArg (fun r => some (r, [])) (by decide))
  (stream_conserved [.data getPacket]).2.2 _ _ _ h

end NiceHttp
