import ComponentDocs.Formatter.Command
import Mathlib.Logic.Relation
import Mathlib.Tactic.Common
/-! A text that a program formats goes to it through a pipe, and what the program writes comes back through two others.
The text is sent and both outputs are taken side by side, so that nobody waits in a circle, whatever the program
does and however little the pipes hold. -/
namespace ComponentDocs

namespace Pipe
variable (p : Pipe)

@[simp] theorem bytes_put (chunk : Bytes) (h) : (p.put chunk h).bytes = p.bytes ++ chunk := rfl
@[simp] theorem isWritten_put (chunk : Bytes) (h) : (p.put chunk h).isWritten = p.isWritten := rfl
@[simp] theorem bytes_drop (n : Nat) : (p.drop n).bytes = p.bytes.drop n := rfl

end Pipe

namespace Stream

/-- Nothing gets lost, and the end is what comes after everything. -/
structure Sound (s : Stream) : Prop where
  written_eq : s.written = s.taken ++ s.pipe.bytes
  ended : s.ended = true → s.pipe.bytes = [] ∧ s.pipe.isWritten = false

/-- How much of it is still to be taken, with its end. -/
def remaining (s : Stream) : Nat := s.pipe.bytes.length + if s.ended then 0 else 1

variable {s : Stream}

@[simp] theorem pipe_take (n : Nat) : (s.take n).pipe = s.pipe.drop n := rfl
@[simp] theorem ended_take (n : Nat) : (s.take n).ended = s.ended := rfl

theorem Sound.put (h : s.Sound) (hopen : s.pipe.isWritten = true) {chunk : Bytes}
    (hfits : s.pipe.bytes.length + chunk.length ≤ s.pipe.capacity) : (s.put chunk hfits).Sound where
  written_eq := by rw [Stream.put, h.written_eq, Pipe.put, List.append_assoc]
  ended he := by
    have hclosed := (h.ended he).2
    rw [hopen] at hclosed
    cases hclosed

theorem Sound.take (h : s.Sound) (n : Nat) : (s.take n).Sound where
  written_eq := by
    rw [Stream.take, Pipe.drop, List.append_assoc, List.take_append_drop]
    exact h.written_eq
  ended he := by
    obtain ⟨hbytes, hclosed⟩ := h.ended he
    exact ⟨by rw [pipe_take, Pipe.bytes_drop, hbytes, List.drop_nil], hclosed⟩

theorem Sound.close (h : s.Sound) : s.close.Sound where
  written_eq := h.written_eq
  ended he := ⟨(h.ended he).1, rfl⟩

theorem Sound.finish (h : s.Sound) (hbytes : s.pipe.bytes = []) (hclosed : s.pipe.isWritten = false) :
    Sound { s with ended := true } where
  written_eq := h.written_eq
  ended _ := ⟨hbytes, hclosed⟩

theorem Sound.taken_eq (h : s.Sound) (he : s.ended = true) : s.taken = s.written := by
  rw [h.written_eq, (h.ended he).1, List.append_nil]

theorem remaining_take {n : Nat} (hpos : 0 < n) (hle : n ≤ s.pipe.bytes.length) :
    (s.take n).remaining < s.remaining := by
  rw [remaining, remaining, pipe_take, ended_take, Pipe.bytes_drop, List.length_drop]
  omega

theorem remaining_finish (h : s.ended = false) : remaining { s with ended := true } < s.remaining := by
  simp [remaining, h]

end Stream

/-- How much is left to do: to send the rest, and to stop. -/
def Sender.remaining : Sender → Nat
  | sending rest => rest.length + 1
  | _ => 0

def Caller.remaining : Caller → Nat
  | taking => 2
  | joining _ => 1
  | done _ => 0

namespace Exchange
variable {σ : Type}

/-- The states that an exchange comes to, whoever takes the next step, and whatever the pipes hold. -/
def Reachable (acts : σ → Action σ → Prop) (c : Command) (text : String) (x : Exchange σ) : Prop :=
  ∃ (p : σ) (capacity : Nat) (hcapacity : 0 < capacity) (capacities : Sink → Nat)
    (hcapacities : ∀ k, 0 < capacities k),
    Relation.ReflTransGen (fun x y => Advance c text x y ∨ Act acts x y)
      (start text (.empty capacity hcapacity) (fun k => .empty (capacities k) (hcapacities k)) p) x

/-- There is nothing yet to read, or there is not enough room in a pipe to write everything. -/
def Blocked (x : Exchange σ) : Action σ → Prop
  | .read count _ => 0 < count ∧ x.input.isRead = true ∧ x.input.bytes = [] ∧ x.input.isWritten = true
  | .write k bytes _ =>
    (x.streams k).pipe.isWritten = true ∧ (x.streams k).pipe.bytes ≠ [] ∧
      (x.streams k).pipe.capacity < (x.streams k).pipe.bytes.length + bytes.length
  | _ => False

/-- The program waits on a pipe. -/
def Waits (acts : σ → Action σ → Prop) (x : Exchange σ) : Prop :=
  ∃ p a, x.child = .running p ∧ acts p a ∧ x.Blocked a

/-- What has been sent is in the pipe or was received, the end of the pipe that a party lets go is closed, nothing of
what was written is lost, and the caller is as far as it says. -/
structure Sound (c : Command) (text : String) (x : Exchange σ) : Prop where
  sent : x.received ++ x.input.bytes ++ x.sender.rest = Text.encode text
  sending : x.input.isWritten = x.sender.isSending
  broken : ∀ rest, x.sender = .broken rest → x.input.isRead = false
  streams : ∀ k, (x.streams k).Sound
  ended : ∀ status, x.child = .ended status → x.input.isRead = false ∧ ∀ k, (x.streams k).pipe.isWritten = false
  joining : ∀ status, x.caller = .joining status → x.child = .ended status ∧ ∀ k, (x.streams k).ended = true
  done : ∀ r, x.caller = .done r → ∃ status, x.child = .ended status ∧ (∀ k, (x.streams k).ended = true) ∧
    r = x.result c text status

variable {c : Command} {text : String} {acts : σ → Action σ → Prop} {x y : Exchange σ}

theorem sound_start (input : Pipe) (pipes : Sink → Pipe) (p : σ) (hinput : input.bytes = [] ∧ input.isWritten = true)
    (hpipes : ∀ k, (pipes k).bytes = []) : (start text input pipes p).Sound c text where
  sent := by simp [start, hinput.1, Sender.rest]
  sending := by simp [start, hinput.2, Sender.isSending]
  broken := nofun
  streams k := ⟨by simp [start, hpipes k], nofun⟩
  ended := nofun
  joining := nofun
  done := nofun

theorem forall_setStream {P : Stream → Prop} (h : ∀ k, P (x.streams k)) {k : Sink} {s : Stream} (hs : P s) (j : Sink) :
    P ((x.setStream k s).streams j) := by
  change P (if j = k then s else x.streams j)
  split
  · exact hs
  · exact h j

theorem Sound.setStream (h : x.Sound c text) (hcaller : x.caller = .taking) {k : Sink} {s : Stream} (hs : s.Sound)
    (hclosed : (x.streams k).pipe.isWritten = false → s.pipe.isWritten = false) : (x.setStream k s).Sound c text where
  sent := h.sent
  sending := h.sending
  broken := h.broken
  streams := forall_setStream h.streams hs
  ended status hchild := by
    obtain ⟨hread, hwritten⟩ := h.ended status hchild
    exact ⟨hread, forall_setStream (P := fun s => s.pipe.isWritten = false) hwritten (hclosed (hwritten k))⟩
  joining _ hjoining := nomatch hcaller.symm.trans hjoining
  done _ hdone := nomatch hcaller.symm.trans hdone

theorem Sound.caller_eq (h : x.Sound c text) {p : σ} (hchild : x.child = .running p) : x.caller = .taking := by
  cases hcaller : x.caller with
  | taking => rfl
  | joining status => exact nomatch hchild.symm.trans (h.joining status hcaller).1
  | done r =>
    obtain ⟨status, hended, -⟩ := h.done r hcaller
    exact nomatch hchild.symm.trans hended

/-- The program goes on, or comes to its end with its ends of the pipes closed. -/
theorem Sound.setChild (h : x.Sound c text) {p : σ} (hchild : x.child = .running p) (q : σ) :
    Sound c text { x with child := .running q } where
  sent := h.sent
  sending := h.sending
  broken := h.broken
  streams := h.streams
  ended := nofun
  joining _ hjoining := nomatch (h.caller_eq hchild).symm.trans hjoining
  done _ hdone := nomatch (h.caller_eq hchild).symm.trans hdone

theorem Sound.exit (h : x.Sound c text) {p : σ} (hchild : x.child = .running p) (status : ExitStatus) :
    (x.exit status).Sound c text where
  sent := h.sent
  sending := h.sending
  broken _ _ := rfl
  streams k := (h.streams k).close
  ended _ _ := ⟨rfl, fun _ => rfl⟩
  joining _ hjoining := nomatch (h.caller_eq hchild).symm.trans hjoining
  done _ hdone := nomatch (h.caller_eq hchild).symm.trans hdone

/-- The sender leaves the sum of what it sent and of what it has still to send as it is. -/
theorem Sound.advance (h : x.Sound c text) (hstep : Advance c text x y) : y.Sound c text := by
  have hsent := h.sent
  have hsending := h.sending
  cases hstep with
  | send rest n hsender hread hpos hle hfits =>
    rw [hsender] at hsent hsending
    exact { h with
      sent := by simpa [Sender.rest] using hsent, sending := by simpa [Sender.isSending] using hsending, broken := nofun }
  | finishSending hsender =>
    rw [hsender] at hsent
    exact { h with sent := hsent, sending := rfl, broken := nofun }
  | breakOff rest hsender hne hread =>
    rw [hsender] at hsent
    exact { h with sent := hsent, sending := rfl, broken := fun _ _ => hread }
  | take k n hcaller hpos hle => exact h.setStream hcaller ((h.streams k).take n) id
  | seeEnd k hcaller hended hbytes hclosed => exact h.setStream hcaller ((h.streams k).finish hbytes hclosed) id
  | wait status hcaller hended hchild =>
    refine { h with joining := ?_, done := nofun }
    rintro status' ⟨⟩
    exact ⟨hchild, hended⟩
  | join status hcaller hsender =>
    obtain ⟨hchild, hended⟩ := h.joining status hcaller
    refine { h with joining := nofun, done := ?_ }
    rintro r ⟨⟩
    exact ⟨status, hchild, hended, rfl⟩

theorem Sound.act (h : x.Sound c text) (hstep : Act acts x y) : y.Sound c text := by
  cases hstep with
  | compute p q hchild _ => exact h.setChild hchild q
  | read p count n next hchild _ hread hpos hcount hle =>
    have hnext := h.setChild hchild (next (x.input.bytes.take n))
    refine { hnext with sent := ?_ }
    have hsent := h.sent
    simpa using hsent
  | readNothing p count next hchild _ _ => exact h.setChild hchild (next [])
  | write p k bytes n next hchild _ hopen hpos hle hfits =>
    exact (h.setStream (h.caller_eq hchild) ((h.streams k).put hopen hfits) id).setChild hchild _
  | writeNothing p k bytes next hchild _ _ => exact h.setChild hchild (next bytes)
  | closeInput p q hchild _ =>
    have hnext := h.setChild hchild q
    exact { hnext with broken := fun _ _ => rfl, ended := nofun }
  | closeSink p q k hchild _ =>
    exact (h.setStream (h.caller_eq hchild) (h.streams k).close fun _ => rfl).setChild hchild q
  | exit p status hchild _ => exact h.exit hchild status
  | killed p n hchild => exact h.exit hchild (.signal n)

theorem Reachable.sound (h : Reachable acts c text x) : x.Sound c text := by
  obtain ⟨p, capacity, hcapacity, capacities, hcapacities, hrun⟩ := h
  induction hrun with
  | refl => exact sound_start _ _ p ⟨rfl, rfl⟩ fun _ => rfl
  | tail _ hstep ih => exact hstep.elim ih.advance ih.act

/-- How much the sender and the caller have left to do, for as long as the program does not write. -/
def remaining (x : Exchange σ) : Nat :=
  x.sender.remaining + (x.streams .output).remaining + (x.streams .errors).remaining + x.caller.remaining

theorem remaining_setStream {k : Sink} {s : Stream} (h : s.remaining < (x.streams k).remaining) :
    (x.setStream k s).remaining < x.remaining := by
  cases k <;> simp [remaining, setStream] <;> omega

/-- The sender and the caller cannot go on forever without the program. -/
theorem Advance.remaining_lt (h : Advance c text x y) : y.remaining < x.remaining := by
  cases h with
  | send rest n hsender hread hpos hle hfits =>
    simp only [remaining, hsender, Sender.remaining, List.length_drop]
    omega
  | finishSending hsender => simp [remaining, hsender, Sender.remaining]
  | breakOff rest hsender hne hread => simp [remaining, hsender, Sender.remaining]
  | take k n hcaller hpos hle => exact remaining_setStream (Stream.remaining_take hpos hle)
  | seeEnd k hcaller hended hbytes hclosed => exact remaining_setStream (Stream.remaining_finish hended)
  | wait status hcaller hended hchild => simp [remaining, hcaller, Caller.remaining]
  | join status hcaller hsender => simp [remaining, hcaller, Caller.remaining]

theorem exists_sending {s : Sender} (h : s.isSending = true) : ∃ rest, s = .sending rest := by
  cases s with
  | sending rest => exact ⟨rest, rfl⟩
  | finished => cases h
  | broken rest => cases h

/-- The sender goes on into a pipe that is empty or that nobody reads. -/
theorem exists_advance_of_isSending (hsending : x.sender.isSending = true)
    (hinput : x.input.bytes = [] ∨ x.input.isRead = false) : ∃ y, Advance c text x y := by
  obtain ⟨rest, hsender⟩ := exists_sending hsending
  cases rest with
  | nil => exact ⟨_, .finishSending hsender⟩
  | cons b rest =>
    cases hread : x.input.isRead with
    | false => exact ⟨_, .breakOff _ hsender (by simp) hread⟩
    | true =>
      have hbytes := hinput.resolve_right (by simp [hread])
      have hpos := x.input.capacity_pos
      exact ⟨_, .send _ 1 hsender hread Nat.one_pos (by simp) (by simp [hbytes]; omega)⟩

/-- The caller goes on with a sink that holds something, or that has come to an end which it has not seen. -/
theorem exists_advance_of_taking (hcaller : x.caller = .taking) (k : Sink)
    (hstream : (x.streams k).pipe.bytes ≠ [] ∨
      (x.streams k).ended = false ∧ (x.streams k).pipe.isWritten = false) : ∃ y, Advance c text x y := by
  by_cases hbytes : (x.streams k).pipe.bytes = []
  · obtain ⟨hended, hclosed⟩ := hstream.resolve_left (not_not_intro hbytes)
    exact ⟨_, .seeEnd k hcaller hended hbytes hclosed⟩
  · exact ⟨_, .take k 1 hcaller Nat.one_pos (List.length_pos_iff.2 hbytes)⟩

/-- A program only ever waits on a pipe. -/
theorem blocked_or_exists_act {p : σ} {a : Action σ} (hchild : x.child = .running p) (ha : acts p a) :
    x.Blocked a ∨ ∃ y, Act acts x y := by
  refine or_iff_not_imp_left.2 fun hblocked => ?_
  cases a with
  | compute q => exact ⟨_, .compute p q hchild ha⟩
  | closeInput q => exact ⟨_, .closeInput p q hchild ha⟩
  | closeSink k q => exact ⟨_, .closeSink p q k hchild ha⟩
  | exit status => exact ⟨_, .exit p status hchild ha⟩
  | read count next =>
    by_cases hnothing : count = 0 ∨ x.input.isRead = false ∨ x.input.bytes = [] ∧ x.input.isWritten = false
    · exact ⟨_, .readNothing p count next hchild ha hnothing⟩
    · obtain ⟨hcount, hread, hopen⟩ : count ≠ 0 ∧ x.input.isRead = true ∧
          (x.input.bytes = [] → x.input.isWritten = true) := by simpa using hnothing
      have hbytes : x.input.bytes ≠ [] := fun hempty =>
        hblocked ⟨Nat.pos_of_ne_zero hcount, hread, hempty, hopen hempty⟩
      have hlength := List.length_pos_iff.2 hbytes
      exact ⟨_, .read p count 1 next hchild ha hread Nat.one_pos (Nat.pos_of_ne_zero hcount) hlength⟩
  | write k bytes next =>
    by_cases hnothing : bytes = [] ∨ (x.streams k).pipe.isWritten = false
    · exact ⟨_, .writeNothing p k bytes next hchild ha hnothing⟩
    · obtain ⟨hne, hopen⟩ : bytes ≠ [] ∧ (x.streams k).pipe.isWritten = true := by simpa using hnothing
      have hlength := List.length_pos_iff.2 hne
      have hpos := (x.streams k).pipe.capacity_pos
      have hroom : (x.streams k).pipe.bytes.length + (bytes.take 1).length ≤ (x.streams k).pipe.capacity := by
        rw [List.length_take]
        by_cases hempty : (x.streams k).pipe.bytes = []
        · rw [hempty, List.length_nil]
          omega
        · have hfits := Nat.not_lt.1 fun hlt => hblocked ⟨hopen, hempty, hlt⟩
          omega
      exact ⟨_, .write p k bytes 1 next hchild ha hopen Nat.one_pos hlength hroom⟩

/-- Where the program waits for input, the pipe is empty and the sender goes on. Where it waits to write, the pipe is
not empty and the caller, who does not stop before the program does, takes from it. -/
theorem Sound.exists_advance_of_waits (h : x.Sound c text) (hwaits : x.Waits acts) : ∃ y, Advance c text x y := by
  obtain ⟨p, a, hchild, -, hblocked⟩ := hwaits
  cases a with
  | read count next =>
    obtain ⟨-, -, hbytes, hwritten⟩ := hblocked
    exact exists_advance_of_isSending (h.sending ▸ hwritten) (.inl hbytes)
  | write k bytes next =>
    obtain ⟨-, hbytes, -⟩ := hblocked
    exact exists_advance_of_taking (h.caller_eq hchild) k (.inl hbytes)
  | compute q => cases hblocked
  | closeInput q => cases hblocked
  | closeSink k q => cases hblocked
  | exit status => cases hblocked

theorem Sound.exists_advance_of_ended (h : x.Sound c text) {status : ExitStatus} (hchild : x.child = .ended status)
    (hdone : ∀ r, x.caller ≠ .done r) : ∃ y, Advance c text x y := by
  obtain ⟨hread, hclosed⟩ := h.ended status hchild
  cases hcaller : x.caller with
  | done r => exact absurd hcaller (hdone r)
  | joining status' =>
    cases hsending : x.sender.isSending with
    | true => exact exists_advance_of_isSending hsending (.inr hread)
    | false => exact ⟨_, .join status' hcaller hsending⟩
  | taking =>
    by_cases hended : ∀ k, (x.streams k).ended = true
    · exact ⟨_, .wait status hcaller hended hchild⟩
    · obtain ⟨k, hk⟩ := not_forall.1 hended
      exact exists_advance_of_taking hcaller k (.inr ⟨by simpa using hk, hclosed k⟩)

/-- The formatter gives a text exactly if the program succeeds and writes it. -/
theorem ofCommand_eq_ok_iff (c : Command) (text s : String) (e : Execution) :
    Formatter.ofCommand (fun _ _ => .ok e) c text = .ok s ↔ e.status = .code 0 ∧ e.output = Text.encode s := by
  have hsuccess : e.status.isSuccess = true ↔ e.status = .code 0 := decide_eq_true_iff
  unfold Formatter.ofCommand
  rw [← hsuccess]
  cases hs : e.status.isSuccess with
  | false => simp [hs]
  | true =>
    constructor
    · intro h
      cases hd : Text.decode? e.output with
      | none => simp [hs, hd] at h
      | some out =>
        obtain rfl : out = s := by simpa [hs, hd] using h
        exact ⟨rfl, (Text.encode_of_decode? hd).symm⟩
    · rintro ⟨-, h⟩
      simp [hs, h, Text.decode?_encode]

theorem Sound.result_of_done (h : x.Sound c text) {r : Except FormatError String} (hdone : x.caller = .done r) :
    ∃ status, x.child = .ended status ∧ r = Formatter.ofCommand
      (fun _ _ => .ok ⟨(x.streams .output).written, (x.streams .errors).written, status⟩) c text := by
  obtain ⟨status, hchild, hended, rfl⟩ := h.done r hdone
  refine ⟨status, hchild, ?_⟩
  have hall (k : Sink) : (x.streams k).taken = (x.streams k).written := (h.streams k).taken_eq (hended k)
  rw [result, hall .output, hall .errors]

/-- An exchange goes on, without the program, while the program waits on a pipe and after it has ended, and then comes
to its result within a number of steps. The result is what the formatter makes of everything that the program wrote:
a text exactly if the program succeeded and wrote it, whatever it read. -/
theorem Reachable.comes_to_result (h : Reachable acts c text x) :
    (x.Waits acts ∨ (∃ status, x.child = .ended status) ∧ (∀ r, x.caller ≠ .done r) → ∃ y, Advance c text x y) ∧
    (∀ p a, x.child = .running p → acts p a → x.Blocked a ∨ ∃ y, Act acts x y) ∧
    (∀ y, Advance c text x y → y.remaining < x.remaining) ∧
    ∀ r, x.caller = .done r → ∃ status, x.child = .ended status ∧
      r = Formatter.ofCommand (fun _ _ => .ok ⟨(x.streams .output).written, (x.streams .errors).written, status⟩) c text ∧
      ∀ s, r = .ok s ↔ status = .code 0 ∧ (x.streams .output).written = Text.encode s := by
  have hsound := h.sound
  refine ⟨?_, fun p a hchild ha => blocked_or_exists_act hchild ha, fun y hy => hy.remaining_lt, fun r hdone => ?_⟩
  · rintro (hwaits | ⟨⟨status, hchild⟩, hdone⟩)
    · exact hsound.exists_advance_of_waits hwaits
    · exact hsound.exists_advance_of_ended hchild hdone
  · obtain ⟨status, hchild, hresult⟩ := hsound.result_of_done hdone
    refine ⟨status, hchild, hresult, fun s => ?_⟩
    rw [hresult, ofCommand_eq_ok_iff]

theorem Reachable.tail (h : Reachable acts c text x) (hstep : Advance c text x y ∨ Act acts x y) :
    Reachable acts c text y := by
  obtain ⟨p, capacity, hcapacity, capacities, hcapacities, hrun⟩ := h
  exact ⟨p, capacity, hcapacity, capacities, hcapacities, hrun.tail hstep⟩

/-- A program that writes some bytes, and ends without a look at its input. -/
def writes : Bytes → Action Bytes → Prop
  | [], a => a = .exit (.code 0)
  | b :: bytes, a => a = .write .output (b :: bytes) id

/-- Through pipes that hold a byte, two bytes come from a program that does not read. It waits before the second one,
and its end breaks the sending off. -/
theorem comes_to_result_writes : ∃ x y : Exchange Bytes, Reachable writes ⟨"hi", []⟩ "text" x ∧ x.Waits writes ∧
    (∃ z, Advance ⟨"hi", []⟩ "text" x z) ∧ Reachable writes ⟨"hi", []⟩ "text" y ∧ y.received = [] ∧
    y.caller = .done (.ok "hi") := by
  have h0 : Reachable writes ⟨"hi", []⟩ "text" (start "text" (.empty 1 Nat.one_pos)
      (fun _ => .empty 1 Nat.one_pos) [104, 105]) := ⟨_, 1, _, fun _ => 1, _, .refl⟩
  have h1 := h0.tail (.inr (.write [104, 105] .output [104, 105] 1 id rfl rfl rfl (by decide) (by decide) (by decide)))
  have h2 := h1.tail (.inl (.take .output 1 rfl (by decide) (by decide)))
  have h3 := h2.tail (.inr (.write [105] .output [105] 1 id rfl rfl rfl (by decide) (by decide) (by decide)))
  have h4 := h3.tail (.inr (.exit [] (.code 0) rfl rfl))
  have h5 := h4.tail (.inl (.breakOff _ rfl (by decide) rfl))
  have h6 := h5.tail (.inl (.take .output 1 rfl (by decide) (by decide)))
  have h7 := h6.tail (.inl (.seeEnd .output rfl rfl rfl rfl))
  have h8 := h7.tail (.inl (.seeEnd .errors rfl rfl rfl rfl))
  have h9 := h8.tail (.inl (.wait (.code 0) rfl (by rintro (_ | _) <;> rfl) rfl))
  have h10 := h9.tail (.inl (.join (.code 0) rfl rfl))
  obtain ⟨status, hchild, -, hresult⟩ := h10.comes_to_result.2.2.2 _ rfl
  cases hchild
  refine ⟨_, _, h1, ?waits, h1.comes_to_result.1 (.inl ?waits), h10, rfl,
    congrArg Caller.done ((hresult "hi").2 ⟨rfl, by decide +kernel⟩)⟩
  exact ⟨[105], .write .output [105] id, rfl, rfl, rfl, by decide, by decide⟩

end Exchange

end ComponentDocs
