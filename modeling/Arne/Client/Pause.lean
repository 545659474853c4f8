import Arne.Client.Request

/-!
# Pausing and jumping (`lib/timeline`)

The pure parts the timeline's handlers are written with: the live buffer
(`liveBuffer.ts`), the pause table (`pauseMachine.ts`), the jump plans (`jumpPlan.ts`) and
what follows a page (`postPage.ts`).
-/

namespace Arne.Client

open Arne.Message Arne.Timeline

/-! ### The live buffer -/

structure LiveBuffer where
  cap : Nat
  items : List MessageOut
  received : Nat
  overflowed : Bool
deriving DecidableEq, Repr

def createLiveBuffer (cap : Nat) : LiveBuffer := ⟨cap, [], 0, false⟩

/-- Over the cap the oldest item is shifted out. -/
def LiveBuffer.push (b : LiveBuffer) (m : MessageOut) : LiveBuffer :=
  let items := b.items ++ [m]
  if b.cap < items.length then ⟨b.cap, items.tail, b.received + 1, true⟩
  else ⟨b.cap, items, b.received + 1, b.overflowed⟩

def LiveBuffer.drain (b : LiveBuffer) : LiveBuffer × List MessageOut :=
  (createLiveBuffer b.cap, b.items)

def LiveBuffer.clear (b : LiveBuffer) : LiveBuffer := createLiveBuffer b.cap

@[simp] theorem LiveBuffer.push_cap (b : LiveBuffer) (m : MessageOut) : (b.push m).cap = b.cap := by
  simp only [LiveBuffer.push]
  split
  · rfl
  · rfl

theorem LiveBuffer.push_items {b : LiveBuffer} (h : b.items.length < b.cap) (m : MessageOut) :
    (b.push m).items = b.items ++ [m] := by
  have hroom : ¬ b.cap < (b.items ++ [m]).length := by
    rw [List.length_append, List.length_singleton]
    omega
  rw [LiveBuffer.push, if_neg hroom]

/-- Of many items the last `cap` are kept. -/
theorem LiveBuffer.pushAll_items (cap : Nat) (msgs : List MessageOut) :
    (msgs.foldl LiveBuffer.push (createLiveBuffer cap)).items = msgs.drop (msgs.length - cap) ∧
      (msgs.foldl LiveBuffer.push (createLiveBuffer cap)).cap = cap := by
  induction msgs using List.reverseRecOn with
  | nil => exact ⟨List.drop_nil.symm, rfl⟩
  | append_singleton msgs m ih =>
    obtain ⟨hitems, hcap⟩ := ih
    rw [List.foldl_append, List.foldl_cons, List.foldl_nil]
    refine ⟨?_, (LiveBuffer.push_cap _ m).trans hcap⟩
    rw [LiveBuffer.push, hcap, hitems, ← List.drop_append_of_le_length (by omega)]
    rw [List.length_drop, List.length_append, List.length_singleton]
    split
    · show ((msgs ++ [m]).drop (msgs.length - cap)).tail = _
      rw [List.tail_drop]
      congr 1
      omega
    · show (msgs ++ [m]).drop (msgs.length - cap) = _
      congr 1
      omega

/-! ### Pausing -/

inductive PauseReason where
  | none
  | auto
  | explicit
deriving DecidableEq, Repr

inductive AnchorContext where
  | default
  | beginning
deriving DecidableEq, Repr

/-- `intent` is read by the jump only. -/
structure PauseInput where
  pauseReason : PauseReason
  attached : Bool
  inspecting : Bool
  intent : Option PauseReason
deriving DecidableEq, Repr

inductive PauseEvent where
  | pillClick
  | toggleClick
  | scrollPinnedTop
  | scrollAwayFromTop
  | reattached
  | lastInspectionClosed
  | jump
deriving DecidableEq, Repr

structure PauseDecision where
  pause : PauseReason
  flush : Bool
  jumpToNow : Bool
  scrollTop : Bool
deriving DecidableEq, Repr

def idle (pause : PauseReason) : PauseDecision := ⟨pause, false, false, false⟩

def nextPause (input : PauseInput) : PauseEvent → PauseDecision
  | .pillClick =>
      if !input.attached then { idle input.pauseReason with jumpToNow := true }
      else ⟨if input.pauseReason = .auto then .none else input.pauseReason, true, false, true⟩
  | .toggleClick =>
      if !input.attached then { idle input.pauseReason with jumpToNow := true }
      else if input.pauseReason = .none then idle .explicit
      else ⟨.none, true, false, false⟩
  | .scrollPinnedTop =>
      if input.inspecting then idle input.pauseReason
      else if input.attached && input.pauseReason = .auto then ⟨.none, true, false, false⟩
      else idle input.pauseReason
  | .scrollAwayFromTop =>
      if input.pauseReason = .none then idle .auto else idle input.pauseReason
  | .reattached =>
      if input.inspecting then idle input.pauseReason
      else if input.pauseReason = .explicit then idle .explicit
      else ⟨.none, true, false, false⟩
  | .jump => idle (if input.pauseReason = .explicit then .explicit else input.intent.getD .none)
  | .lastInspectionClosed =>
      if input.attached && input.pauseReason ≠ .explicit then ⟨.none, true, false, false⟩
      else idle input.pauseReason

/-- For a detached window the table asks for a flush only when it attaches. -/
theorem nextPause_detached {input : PauseInput} (h : input.attached = false) {event : PauseEvent}
    (hevent : event ≠ .reattached) : (nextPause input event).flush = false := by
  cases event with
  | reattached => exact absurd rfl hevent
  | jump => rfl
  | pillClick =>
    dsimp only [nextPause]
    rw [h]
    rfl
  | toggleClick =>
    dsimp only [nextPause]
    rw [h]
    rfl
  | scrollPinnedTop =>
    dsimp only [nextPause]
    rw [h, Bool.false_and, if_neg Bool.false_ne_true, ite_self]
    rfl
  | scrollAwayFromTop =>
    dsimp only [nextPause]
    split
    · rfl
    · rfl
  | lastInspectionClosed =>
    dsimp only [nextPause]
    rw [h, Bool.false_and, if_neg Bool.false_ne_true]
    rfl

/-! ### Jumps -/

inductive JumpTarget where
  | now
  | beginning
  | offset (partition offset : Int)
  | timestamp (tsMs : Int)
deriving DecidableEq, Repr

/-- The anchored page requests; every page has the same limit. -/
structure TimelinePageParams where
  direction : Direction
  anchor : TimelineAnchorInput
deriving DecidableEq, Repr

structure JumpPlan where
  anchorContext : AnchorContext
  pauseIntent : PauseReason
  attach : Bool
  params : TimelinePageParams
deriving DecidableEq, Repr

def planJump : JumpTarget → JumpPlan
  | .now => ⟨.default, .none, true, ⟨.back, .latest⟩⟩
  | .beginning => ⟨.beginning, .auto, false, ⟨.forward, .beginning⟩⟩
  | .offset partition offset => ⟨.default, .auto, false, ⟨.forward, .offset partition offset⟩⟩
  | .timestamp tsMs => ⟨.default, .auto, false, ⟨.forward, .timestamp tsMs⟩⟩

/-- What `insertPage` is told of the first page of a plan. -/
def JumpPlan.request (plan : JumpPlan) : Request :=
  match plan.params.direction with
  | .back => .latest
  | .forward => .forwardFrom

theorem planJump_first (target : JumpTarget) :
    (planJump target).request = .latest ∨ (planJump target).request = .forwardFrom := by
  cases target with
  | now => exact Or.inl rfl
  | beginning => exact Or.inr rfl
  | offset => exact Or.inr rfl
  | timestamp => exact Or.inr rfl

/-! ### After a page -/

structure PostPageInput where
  error : Bool
  exhausted : Bool
  matched : Bool
  filterActive : Bool
  pageMatches : Nat
  pageLimit : Nat
  nextCursor : Option (List Position)
  iteration : Nat
  iterationCap : Nat

inductive PostPageDecision where
  | errorDropOverlay
  | stop
  | offerContinue
  | continue (cursor : List Position)
deriving DecidableEq, Repr

def decidePostPage (input : PostPageInput) : PostPageDecision :=
  if input.error then .errorDropOverlay
  else if input.exhausted then .stop
  else if input.matched then
    if input.filterActive && input.pageMatches < input.pageLimit then .offerContinue else .stop
  else match input.nextCursor with
    | none => .stop
    | some cursor =>
        if input.iterationCap ≤ input.iteration then .offerContinue else .continue cursor

/-- What the table was told where it decides so.  It stops at the end of the topic, after a full
    page or one that nobody filters, and where there is no edge. -/
def PostPageDecision.Grounds (input : PostPageInput) : PostPageDecision → Prop
  | .errorDropOverlay => input.error = true
  | .stop =>
      input.exhausted = true ∨ (input.filterActive && input.pageMatches < input.pageLimit) = false ∨
        input.nextCursor = none
  | .offerContinue =>
      (input.filterActive && input.pageMatches < input.pageLimit) = true ∨
        input.iterationCap ≤ input.iteration
  | .continue cursor => input.nextCursor = some cursor ∧ input.iteration < input.iterationCap

theorem decidePostPage_grounds (input : PostPageInput) :
    (decidePostPage input).Grounds input := by
  unfold decidePostPage
  split
  · assumption
  · split
    · exact Or.inl ‹_›
    · split
      · split
        · exact Or.inl ‹_›
        · rename_i hfull
          exact Or.inr (Or.inl (Bool.eq_false_iff.mpr hfull))
      · split
        · exact Or.inr (Or.inr ‹_›)
        · split
          · exact Or.inr ‹_›
          · rename_i hroom
            exact ⟨‹_›, Nat.lt_of_not_le hroom⟩

/-- A further page is asked for from the next cursor, and while the budget lasts. -/
theorem decidePostPage_continue {input : PostPageInput} {cursor : List Position}
    (h : decidePostPage input = .continue cursor) :
    input.nextCursor = some cursor ∧ input.iteration < input.iterationCap := by
  have hgrounds := decidePostPage_grounds input
  rw [h] at hgrounds
  exact hgrounds

end Arne.Client
