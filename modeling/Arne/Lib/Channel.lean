import Mathlib.Data.List.Infix

/-!
# Bounded channels

One sender and one receiver with a buffer of a fixed capacity between them.  A full buffer
makes the sender wait and an empty one the receiver; once an end is dropped the other no
longer waits for it.  A channel carries its histories: what was sent is what was taken and
what the buffer holds, unless the receiver was dropped with a part of it.
-/

namespace Arne

structure Channel (α : Type) (capacity : Nat) where
  sent : List α
  taken : List α
  buffer : List α
  senderGone : Bool
  receiverGone : Bool
  within : buffer.length ≤ capacity
  fifo : taken ++ buffer <+: sent
  kept : receiverGone = false → taken ++ buffer = sent

namespace Channel

variable {α : Type} {capacity : Nat}

/-- A new channel. -/
def channel (α : Type) (capacity : Nat) : Channel α capacity where
  sent := []
  taken := []
  buffer := []
  senderGone := false
  receiverGone := false
  within := Nat.zero_le _
  fifo := List.prefix_refl _
  kept := fun _ => rfl

/-- Room for one more, and a receiver to take it. -/
structure Accepts (ch : Channel α capacity) : Prop where
  here : ch.receiverGone = false
  room : ch.buffer.length < capacity

instance (ch : Channel α capacity) : Decidable ch.Accepts :=
  decidable_of_iff (ch.receiverGone = false ∧ ch.buffer.length < capacity)
    ⟨fun h => ⟨h.1, h.2⟩, fun h => ⟨h.here, h.room⟩⟩

def push (ch : Channel α capacity) (a : α) (h : ch.Accepts) : Channel α capacity where
  sent := ch.sent ++ [a]
  taken := ch.taken
  buffer := ch.buffer ++ [a]
  senderGone := ch.senderGone
  receiverGone := ch.receiverGone
  within := by
    rw [List.length_append]
    exact h.room
  fifo := by rw [← List.append_assoc, ch.kept h.here]
  kept := fun _ => by rw [← List.append_assoc, ch.kept h.here]

/-- `none` while the sender waits for room; `false` is a send to a receiver that is gone. -/
def send (ch : Channel α capacity) (a : α) : Option (Bool × Channel α capacity) :=
  if ch.receiverGone then some (false, ch)
  else if h : ch.Accepts then some (true, ch.push a h)
  else none

/-- `none` while the receiver waits; `none` in it once nothing more can come. -/
def recv (ch : Channel α capacity) : Option (Option α × Channel α capacity) :=
  match h : ch.buffer with
  | a :: rest => some (some a, {
      sent := ch.sent
      taken := ch.taken ++ [a]
      buffer := rest
      senderGone := ch.senderGone
      receiverGone := ch.receiverGone
      within := by
        have hwithin := ch.within
        rw [h, List.length_cons] at hwithin
        omega
      fifo := by
        have hfifo := ch.fifo
        rw [h] at hfifo
        rw [List.append_assoc]
        exact hfifo
      kept := fun hhere => by
        have hkept := ch.kept hhere
        rw [h] at hkept
        rw [List.append_assoc]
        exact hkept })
  | [] => if ch.senderGone then some (none, ch) else none

def dropSender (ch : Channel α capacity) : Channel α capacity := { ch with senderGone := true }

/-- The receiver goes with what the buffer holds. -/
def dropReceiver (ch : Channel α capacity) : Channel α capacity where
  sent := ch.sent
  taken := ch.taken
  buffer := []
  senderGone := ch.senderGone
  receiverGone := true
  within := Nat.zero_le _
  fifo := by
    rw [List.append_nil]
    exact (List.prefix_append _ _).trans ch.fifo
  kept := by simp

section Fields

variable (ch : Channel α capacity)

@[simp] theorem dropSender_sent : ch.dropSender.sent = ch.sent := rfl
@[simp] theorem dropSender_taken : ch.dropSender.taken = ch.taken := rfl
@[simp] theorem dropSender_buffer : ch.dropSender.buffer = ch.buffer := rfl
@[simp] theorem dropSender_senderGone : ch.dropSender.senderGone = true := rfl
@[simp] theorem dropSender_receiverGone : ch.dropSender.receiverGone = ch.receiverGone := rfl

@[simp] theorem dropReceiver_sent : ch.dropReceiver.sent = ch.sent := rfl
@[simp] theorem dropReceiver_taken : ch.dropReceiver.taken = ch.taken := rfl
@[simp] theorem dropReceiver_buffer : ch.dropReceiver.buffer = [] := rfl
@[simp] theorem dropReceiver_senderGone : ch.dropReceiver.senderGone = ch.senderGone := rfl
@[simp] theorem dropReceiver_receiverGone : ch.dropReceiver.receiverGone = true := rfl

end Fields

variable {ch ch' : Channel α capacity} {a : α}

/-- A send that was taken in. -/
structure Sent (ch : Channel α capacity) (a : α) (ch' : Channel α capacity) : Prop where
  here : ch.receiverGone = false
  sent : ch'.sent = ch.sent ++ [a]
  taken : ch'.taken = ch.taken
  buffer : ch'.buffer = ch.buffer ++ [a]
  senderGone : ch'.senderGone = ch.senderGone
  receiverGone : ch'.receiverGone = false

theorem send_cases {ok : Bool} (h : ch.send a = some (ok, ch')) :
    (ok = true ∧ ch.Sent a ch') ∨ (ok = false ∧ ch.receiverGone = true ∧ ch' = ch) := by
  unfold send at h
  split at h
  · rename_i hgone
    cases h
    exact .inr ⟨rfl, hgone, rfl⟩
  · split at h
    · rename_i haccepts
      cases h
      exact .inl ⟨rfl, haccepts.here, rfl, rfl, rfl, rfl, haccepts.here⟩
    · cases h

theorem send_eq_none_iff :
    ch.send a = none ↔ ch.receiverGone = false ∧ ch.buffer.length = capacity := by
  have hwithin := ch.within
  unfold send
  split
  · rename_i hgone
    simp [hgone]
  · rename_i hhere
    rw [Bool.not_eq_true] at hhere
    split
    · rename_i haccepts
      have hroom := haccepts.room
      simp only [reduceCtorEq, false_iff]
      omega
    · rename_i hfull
      have hlength : ¬ ch.buffer.length < capacity := fun hroom => hfull ⟨hhere, hroom⟩
      simp only [hhere, true_and, true_iff]
      omega

/-- What a receive took. -/
structure Taken (ch : Channel α capacity) (a : α) (ch' : Channel α capacity) : Prop where
  front : ch.buffer = a :: ch'.buffer
  sent : ch'.sent = ch.sent
  taken : ch'.taken = ch.taken ++ [a]
  senderGone : ch'.senderGone = ch.senderGone
  receiverGone : ch'.receiverGone = ch.receiverGone

theorem recv_cases {o : Option α} (h : ch.recv = some (o, ch')) :
    (∃ a, o = some a ∧ ch.Taken a ch') ∨
      (o = none ∧ ch.senderGone = true ∧ ch.buffer = [] ∧ ch' = ch) := by
  unfold recv at h
  split at h
  · rename_i a rest hbuffer
    cases h
    exact .inl ⟨a, rfl, hbuffer, rfl, rfl, rfl, rfl⟩
  · rename_i hbuffer
    split at h
    · rename_i hgone
      cases h
      exact .inr ⟨rfl, hgone, hbuffer, rfl⟩
    · cases h

theorem recv_eq_none_iff : ch.recv = none ↔ ch.buffer = [] ∧ ch.senderGone = false := by
  unfold recv
  split
  · rename_i hbuffer
    simp [hbuffer]
  · rename_i hbuffer
    split
    · rename_i hgone
      simp [hgone]
    · rename_i hhere
      simp [hbuffer, hhere]

/-- Nothing is sent that the receiver did not take, once nothing more can come. -/
theorem taken_eq_sent (hhere : ch.receiverGone = false) (hbuffer : ch.buffer = []) :
    ch.taken = ch.sent := by
  have hkept := ch.kept hhere
  rw [hbuffer, List.append_nil] at hkept
  exact hkept

end Channel

end Arne
