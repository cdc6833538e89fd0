import Mandarin.Target.Register
import Mathlib.Data.List.DropRight

/-! # Machine basic blocks

A block is a list of instructions. Everything that is neither a terminator nor a
debug value is an opaque `other`. The control transfer of a block is decided by
its terminators from first to last, for a given meaning of the condition codes;
a block that runs off its end falls through to its layout successor.
-/

namespace Mandarin.Branch

abbrev BlockId := Nat

inductive CondCodes where
  | COND_EQ | COND_NE | COND_GR | COND_LS | COND_GE | COND_LE | COND_INVALID
  deriving DecidableEq, Repr

inductive Inst (ι : Type) where
  | other (i : ι)
  | debugValue (i : ι)
  | JMPi (dst : BlockId)
  | JCCi (dst : BlockId) (cc : CondCodes)
  | JMPr (dst : Reg)
  | JCCr (dst : Reg) (cc : CondCodes)
  | RET
  deriving DecidableEq, Repr

namespace Inst

variable {ι : Type}

def isDebugValue : Inst ι → Bool
  | debugValue _ => true
  | _ => false

def isBranch : Inst ι → Bool
  | JMPi _ | JCCi _ _ | JMPr _ | JCCr _ _ => true
  | _ => false

/-- Terminators of the target are not predicable, so `isUnpredicatedTerminator`
is `isTerminator`. -/
def isTerminator : Inst ι → Bool
  | RET => true
  | i => i.isBranch

end Inst

/-! ## Control transfer -/

/-- Where control goes at the end of a block. -/
inductive Exit where
  | block (b : BlockId)
  | indirect (r : Reg)
  | ret
  | fallOff
  deriving DecidableEq, Repr

def fallThrough (next : Option BlockId) : Exit :=
  match next with
  | some b => .block b
  | none => .fallOff

variable {ι : Type}

/-- Control transfer of an instruction, `k` being that of what follows it. -/
def Inst.transfer (holds : CondCodes → Bool) (i : Inst ι) (k : Exit) : Exit :=
  match i with
  | JMPi dst => .block dst
  | JCCi dst cc => if holds cc then .block dst else k
  | JMPr r => .indirect r
  | JCCr r cc => if holds cc then .indirect r else k
  | RET => .ret
  | other _ | debugValue _ => k

def transferThen (holds : CondCodes → Bool) (is : List (Inst ι)) (k : Exit) : Exit :=
  is.foldr (fun i k => i.transfer holds k) k

def transfer (holds : CondCodes → Bool) (next : Option BlockId) (block : List (Inst ι)) : Exit :=
  transferThen holds block (fallThrough next)

@[simp] theorem transferThen_nil (holds : CondCodes → Bool) (k : Exit) :
    transferThen holds ([] : List (Inst ι)) k = k := rfl

@[simp] theorem transferThen_cons (holds : CondCodes → Bool) (i : Inst ι) (is : List (Inst ι))
    (k : Exit) : transferThen holds (i :: is) k = i.transfer holds (transferThen holds is k) := rfl

theorem transferThen_append (holds : CondCodes → Bool) (is js : List (Inst ι)) (k : Exit) :
    transferThen holds (is ++ js) k = transferThen holds is (transferThen holds js k) :=
  List.foldr_append ..

theorem transferThen_of_not_terminator {holds : CondCodes → Bool} {is : List (Inst ι)}
    (h : ∀ i ∈ is, i.isTerminator = false) (k : Exit) : transferThen holds is k = k := by
  induction is with
  | nil => rfl
  | cons i is ih =>
      rw [transferThen_cons, ih fun j hj => h j (by simp [hj])]
      have hi := h i (by simp)
      cases i with
      | other i => rfl
      | debugValue i => rfl
      | JMPi dst => cases hi
      | JCCi dst cc => cases hi
      | JMPr r => cases hi
      | JCCr r cc => cases hi
      | RET => cases hi

/-! ## Well-formed blocks -/

/-- Only terminators and debug values follow the first terminator. -/
def TerminatorsLast (block : List (Inst ι)) : Prop :=
  ∃ body tail, block = body ++ tail ∧ (∀ i ∈ body, i.isTerminator = false) ∧
    ∀ i ∈ tail, i.isTerminator = true ∨ i.isDebugValue = true

theorem TerminatorsLast.before {pre suf : List (Inst ι)} {i : Inst ι}
    (h : TerminatorsLast (pre ++ i :: suf)) (ht : i.isTerminator = false)
    (hd : i.isDebugValue = false) : ∀ j ∈ pre, j.isTerminator = false := by
  rcases h with ⟨body, tail, heq, hbody, htail⟩
  intro j hj
  rcases List.append_eq_append_iff.mp heq with ⟨rest, hrest, _⟩ | ⟨rest, hrest, hsuf⟩
  · apply hbody
    rw [hrest]
    exact List.mem_append_left _ hj
  · cases rest with
    | nil =>
        apply hbody
        rw [List.append_nil] at hrest
        rw [← hrest]
        exact hj
    | cons a rest =>
        exfalso
        have hmem : i ∈ tail := by
          rw [hsuf]
          simp
        rcases htail i hmem with h | h
        · rw [ht] at h
          cases h
        · rw [hd] at h
          cases h

/-- The instructions that are neither branches nor debug values. -/
def kept (block : List (Inst ι)) : List (Inst ι) :=
  block.filter fun i => !i.isBranch && !i.isDebugValue

theorem kept_append (is js : List (Inst ι)) : kept (is ++ js) = kept is ++ kept js :=
  List.filter_append ..

theorem kept_eq_nil {is : List (Inst ι)} (h : ∀ i ∈ is, i.isBranch = true ∨ i.isDebugValue = true) :
    kept is = [] := by
  apply List.filter_eq_nil_iff.mpr
  intro i hi
  rcases h i hi with h | h <;> simp [h]

end Mandarin.Branch
