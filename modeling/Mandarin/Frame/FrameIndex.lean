import Mandarin.Frame.FrameLowering

/-! # Addresses of frame objects

Behind the prologue `R31` holds the incoming stack pointer and `R30` lies
`StackSize` above it. Frame index elimination adds the offset to the first, or
the offset and the stack size to the second, and for a negative sum it emits a
subtraction of the negative number.
-/

namespace Mandarin.Frame

/-- The address in the register that replaces `fi`, behind the prologue. -/
def objectAddress (mf : MachineFunction) (fi : Int) (VReg : Nat) (m : Machine) : Option Word := do
  let m ← runInstrs (emitPrologue mf) m
  let m ← runInstrs (eliminateFrameIndex mf fi VReg).1 m
  some (m.regs (eliminateFrameIndex mf fi VReg).2)

/-- The frame pointer reaches offsets up to `2 ^ 31`. Without it the stack size is
counted twice, or the offset with the wrong sign, and only multiples of `2 ^ 31`
make up for that. -/
def AddressExact (mf : MachineFunction) (fi : Int) : Prop :=
  let o := mf.frameInfo.objectOffset fi
  let n : Int := mf.frameInfo.stackSize
  if hasFP mf then o % 2 ^ 32 ≤ 2 ^ 31
  else if 0 < (o + n) % 2 ^ 32 ∧ (o + n) % 2 ^ 32 < 2 ^ 31 then n % 2 ^ 31 = 0
  else o % 2 ^ 31 = 0

theorem ofInt_eq_ofInt_iff (a b : Int) :
    BitVec.ofInt 32 a = BitVec.ofInt 32 b ↔ (a - b) % 2 ^ 32 = 0 := by
  rw [← BitVec.toNat_inj, BitVec.toNat_ofInt, BitVec.toNat_ofInt]
  have ha := Int.emod_nonneg a (show ((2 ^ 32 : Nat) : Int) ≠ 0 by decide)
  have hb := Int.emod_nonneg b (show ((2 ^ 32 : Nat) : Int) ≠ 0 by decide)
  constructor
  · intro h
    omega
  · intro h
    omega

theorem toInt32_spec (v : Int) :
    toInt32 v % 2 ^ 32 = v % 2 ^ 32 ∧ -2 ^ 31 ≤ toInt32 v ∧ toInt32 v < 2 ^ 31 := by
  unfold toInt32
  rw [Int.bmod_def]
  split <;> omega

/-- How far the register is from the incoming stack pointer. -/
def displacement (mf : MachineFunction) (fi : Int) : Int :=
  (if hasFP mf then 0 else (mf.frameInfo.stackSize : Int)) +
    if frameOffset mf fi < 0 then -frameOffset mf fi else frameOffset mf fi

theorem objectAddress_eq (mf : MachineFunction) (fi : Int) (VReg : Nat) (m : Machine) :
    objectAddress mf fi VReg m = some (m.sp + BitVec.ofInt 32 (displacement mf fi)) := by
  have hbase : (afterPrologue mf m).regs (if hasFP mf then .gpr 31 else .gpr 30) =
      m.sp + BitVec.ofInt 32 (if hasFP mf then 0 else (mf.frameInfo.stackSize : Int)) := by
    by_cases hfp : hasFP mf = true
    · simp [afterPrologue, hfp]
    · simp [afterPrologue, hfp, BitVec.ofInt_natCast]
  unfold objectAddress displacement
  rw [run_emitPrologue]
  generalize (if hasFP mf then (0 : Int) else (mf.frameInfo.stackSize : Int)) = base at hbase ⊢
  simp only [bind, Option.bind, eliminateFrameIndex]
  generalize frameOffset mf fi = off
  by_cases h0 : off = 0
  · subst h0
    simp [runInstrs, hbase]
  · by_cases hpos : off > 0
    · have hneg : ¬ off < 0 := by omega
      simp only [ne_eq, h0, not_false_eq_true, ↓reduceIte, hpos, hneg, runInstrs,
        MachineInstr.exec, Machine.value, bind, Option.bind, hbase, Machine.setReg_self]
      rw [BitVec.ofInt_add, BitVec.add_assoc]
    · have hneg : off < 0 := by omega
      simp only [ne_eq, h0, not_false_eq_true, ↓reduceIte, hpos, hneg, runInstrs,
        MachineInstr.exec, Machine.value, bind, Option.bind, hbase, Machine.setReg_self]
      rw [BitVec.ofInt_add, BitVec.ofInt_neg, ← BitVec.add_assoc, BitVec.sub_eq_add_neg]

/-- The register that replaces a frame index holds the incoming stack pointer plus
the object's offset if and only if the address is exact. -/
theorem objectAddress_eq_iff (mf : MachineFunction) (fi : Int) (VReg : Nat) (m : Machine) :
    objectAddress mf fi VReg m = some (m.sp + BitVec.ofInt 32 (mf.frameInfo.objectOffset fi)) ↔
      AddressExact mf fi := by
  rw [objectAddress_eq, Option.some.injEq, BitVec.add_right_inj, ofInt_eq_ofInt_iff]
  unfold displacement AddressExact frameOffset
  obtain ⟨hmod, hlo, hhi⟩ := toInt32_spec (mf.frameInfo.objectOffset fi)
  generalize mf.frameInfo.objectOffset fi = o at *
  generalize toInt32 o = off at *
  by_cases hfp : hasFP mf = true
  · simp only [hfp, Bool.not_true, Bool.false_eq_true, ↓reduceIte]
    by_cases hneg : off < 0
    · rw [if_pos hneg]
      omega
    · rw [if_neg hneg]
      omega
  · simp only [hfp, Bool.not_false, Bool.false_eq_true, ↓reduceIte]
    obtain ⟨hmod', hlo', hhi'⟩ := toInt32_spec (off + mf.frameInfo.stackSize)
    generalize toInt32 (off + mf.frameInfo.stackSize) = off' at *
    generalize ((mf.frameInfo.stackSize : Nat) : Int) = n at *
    by_cases hcase : 0 < (o + n) % 2 ^ 32 ∧ (o + n) % 2 ^ 32 < 2 ^ 31
    · rw [if_pos hcase]
      by_cases hneg : off' < 0
      · omega
      · rw [if_neg hneg]
        omega
    · rw [if_neg hcase]
      by_cases hneg : off' < 0
      · rw [if_pos hneg]
        omega
      · rw [if_neg hneg]
        omega

def oneWordFrame : MachineFunction := ⟨⟨4, false, false, fun _ => 0⟩, false⟩

/-- The word is addressed 8 bytes above the incoming stack pointer. -/
theorem objectAddress_oneWordFrame :
    (0 ≤ oneWordFrame.frameInfo.objectOffset 0 ∧
      oneWordFrame.frameInfo.objectOffset 0 < oneWordFrame.frameInfo.stackSize) ∧
    objectAddress oneWordFrame 0 0 ⟨fun _ => 0, fun _ => 0, fun _ => 0⟩ ≠
      some (0 + BitVec.ofInt 32 (oneWordFrame.frameInfo.objectOffset 0)) := by
  refine ⟨by decide, ?_⟩
  rw [objectAddress_eq]
  decide

end Mandarin.Frame
