import Reckon.Proofs.Reader.Moves
import Reckon.Proofs.Reader.Runs

namespace Reckon.Descent

/-- What a step does to the depth, as a counter in a word of `w` bits: it never leaves the range of the word. -/
inductive Counts (w : Nat) (s s' : State) : Prop where
  | same (opened : s'.opened = s.opened) (depth : s'.reader.depth = s.reader.depth)
  | up (opened : s'.opened = s.opened + 1) (depth : s'.reader.depth = s.reader.depth + 1)
      (fits : (BitVec.ofNat w s.reader.depth).uaddOverflow 1#w = false)
  | down (opened : s.opened = s'.opened + 1) (depth : s.reader.depth = s'.reader.depth + 1)
      (fits : (BitVec.ofNat w s.reader.depth).usubOverflow 1#w = false)

section Word

variable {w limit depth : Nat}

theorem uaddOverflow_of_lt (lt : depth < limit) (word : limit < 2 ^ w) :
    (BitVec.ofNat w depth).uaddOverflow 1#w = false := by
  have small : depth < 2 ^ w := lt.trans word
  have one : 1 % 2 ^ w ≤ 1 := Nat.mod_le ..
  simp only [BitVec.uaddOverflow, BitVec.toNat_ofNat, Nat.mod_eq_of_lt small, decide_eq_false_iff_not]
  omega

theorem usubOverflow_of_pos (positive : 0 < depth) (le : depth ≤ limit) (word : limit < 2 ^ w) :
    (BitVec.ofNat w depth).usubOverflow 1#w = false := by
  have small : depth < 2 ^ w := le.trans_lt word
  have one : 1 % 2 ^ w ≤ 1 := Nat.mod_le ..
  simp only [BitVec.usubOverflow, BitVec.toNat_ofNat, Nat.mod_eq_of_lt small, decide_eq_false_iff_not]
  omega

end Word

def Balanced (base : Nat) (s : State) : Prop :=
  s.reader.depth = base + s.opened

section Step

variable {limit base w : Nat} {s s' : State}

theorem Balanced.step (balanced : Balanced base s) (stepped : s.step limit = some s') : Balanced base s' := by
  unfold Balanced at balanced ⊢
  cases (State.step_moves stepped).effect with
  | quiet reader _ opened => rw [reader, opened, balanced]
  | opens _ reader _ opened => rw [reader, opened, ← Nat.add_assoc, ← balanced]
  | closes reader _ opened =>
    rw [reader, balanced, opened]
    rfl
  | takes _ taken _ opened _ => rw [(Reader.advance_eq_ok_iff.mp taken).2, opened, balanced]
  | ends _ again _ opened _ _ => rw [(Reader.advance_eq_ok_iff.mp again).2, opened, balanced]
  | tears torn _ opened _ _ => rw [Reader.advance_error_depth torn, opened, balanced]

theorem depth_le_of_step (within : s.reader.depth ≤ limit) (stepped : s.step limit = some s') :
    s'.reader.depth ≤ limit := by
  cases (State.step_moves stepped).effect with
  | quiet reader _ _ => rwa [reader]
  | opens fits reader _ _ =>
    rw [reader]
    exact fits
  | closes reader _ _ =>
    rw [reader]
    exact (Nat.sub_le ..).trans within
  | takes _ taken _ _ _ => rwa [(Reader.advance_eq_ok_iff.mp taken).2]
  | ends _ again _ _ _ _ => rwa [(Reader.advance_eq_ok_iff.mp again).2]
  | tears torn _ _ _ _ => rwa [Reader.advance_error_depth torn]

theorem Balanced.counts (balanced : Balanced base s) (within : s.reader.depth ≤ limit) (word : limit < 2 ^ w)
    (stepped : s.step limit = some s') : Counts w s s' := by
  have after := balanced.step stepped
  unfold Balanced at balanced after
  cases (State.step_moves stepped).effect with
  | quiet _ _ opened | takes _ _ _ opened _ | ends _ _ _ opened _ _ | tears _ _ opened _ _ =>
    exact .same opened (by omega)
  | opens fits _ _ opened => exact .up opened (by omega) (uaddOverflow_of_lt fits word)
  | closes _ _ opened => exact .down opened (by omega) (usubOverflow_of_pos (by omega) within word)

theorem Balanced.reaches (balanced : Balanced base s) (reached : Reaches limit s s') : Balanced base s' := by
  induction reached with
  | refl => exact balanced
  | tail _ stepped ih => exact ih.step stepped

theorem depth_le_of_reaches (within : s.reader.depth ≤ limit) (reached : Reaches limit s s') :
    s'.reader.depth ≤ limit := by
  induction reached with
  | refl => exact within
  | tail _ stepped ih => exact depth_le_of_step ih stepped

end Step

theorem opened_start (policy : Policy) (r : Reader) : (State.start policy r).opened = 0 := by
  cases trailing : policy.allowTrailing <;> simp [State.start, State.opened, Frame.isClose, trailing]

theorem depth_landed (answer : Except SyntaxError Expr × Reader) (stack : List Frame) (asked : Nat) :
    (State.landed answer stack asked).reader = answer.2 ∧
      (State.landed answer stack asked).opened = stack.countP Frame.isClose := by
  obtain ⟨outcome, rest⟩ := answer
  cases outcome with
  | ok e => exact ⟨rfl, rfl⟩
  | error cause => exact ⟨rfl, rfl⟩

theorem outcome_depth (limit : Nat) (task : Task) (r : Reader) : (task.outcome limit r).2.depth = r.depth := by
  obtain ⟨asked, reached⟩ := task_runs limit task r [] 0
  have entered : Balanced r.depth ⟨.enter task, r, [], 0⟩ := rfl
  have left := entered.reaches reached
  obtain ⟨reader, opened⟩ := depth_landed (task.outcome limit r) [] asked
  rwa [Balanced, reader, opened] at left

structure InRange (limit base : Nat) (s : State) : Prop where
  balanced : s.reader.depth = base + s.opened
  within : s.reader.depth ≤ limit
  counts : ∀ w, limit < 2 ^ w → ∀ s', s.step limit = some s' → Counts w s s'

theorem inRange_of_reaches {limit base : Nat} {s s' : State} (balanced : Balanced base s)
    (within : s.reader.depth ≤ limit) (reached : Reaches limit s s') : InRange limit base s' where
  balanced := balanced.reaches reached
  within := depth_le_of_reaches within reached
  counts := fun _ word _ stepped =>
    (balanced.reaches reached).counts (depth_le_of_reaches within reached) word stepped

/-- The depth is balanced at every level, in trees and in failures. From a depth within the limit it stays within the
limit, so that a word that can hold the limit never overflows, and no operand is closed that is not open. A reader that
is used again begins at zero. -/
theorem depth_balanced :
    (∀ limit task r, (Task.outcome limit task r).2.depth = r.depth) ∧
    (∀ limit task r s, r.depth ≤ limit → Reaches limit ⟨.enter task, r, [], 0⟩ s → InRange limit r.depth s) ∧
    (∀ policy r s, r.depth ≤ policy.maxDepth → Reaches policy.maxDepth (.start policy r) s →
      InRange policy.maxDepth r.depth s) ∧
    ∀ policy text r, Reader.UsedOn policy text r → r.depth = 0 := by
  refine ⟨outcome_depth, ?_, ?_, ?_⟩
  · intro limit task r s within reached
    exact inRange_of_reaches (s := ⟨.enter task, r, [], 0⟩) rfl within reached
  · intro policy r s within reached
    have balanced : Balanced r.depth (.start policy r) := by
      rw [Balanced, opened_start]
      rfl
    exact inRange_of_reaches balanced within reached
  · intro policy text r used
    exact used.standsIn.outermost

end Reckon.Descent
