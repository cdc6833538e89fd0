import Mandarin.Encoding.Shapes

/-! # Words and texts

An instruction word is its operation and the payload of its shape, and the text is its
name and the operands of its shape.
-/

namespace Mandarin.Encoding

open Line Packing

/-! ## The table -/

theorem form?_isSome : ∀ d ∈ instructions, (form? d.format d.kinds).isSome = true := by
  decide +kernel

theorem asm_no_blank : ∀ d ∈ instructions, ' ' ∉ d.asm.toList := by
  decide +kernel

theorem Instruction.exists_form (x : Instruction) : ∃ form,
    form? x.inst.format x.inst.kinds = some form ∧
      Shaped x.inst.format x.inst.kinds x.operands form := by
  obtain ⟨form, hform⟩ := Option.isSome_iff_exists.mp (form?_isSome x.inst x.mem)
  exact ⟨form, hform, shaped_of_form hform x.admitted⟩

/-! ## Words -/

theorem Instruction.toNat_Inst (x : Instruction) :
    x.Inst.toNat = 1 + 2 * x.inst.operation.toNat + 256 * x.shape.payload := by
  obtain ⟨form, _, hshaped⟩ := x.exists_form
  have hfields := ascending_fields x.inst.format
  have hbound : Ascending 32 0 (((flagInstSize, 1) :: (operationField, x.inst.operation.toNat) ::
      x.inst.format.fields.zip (x.operands.map Operand.value)).map Prod.fst) :=
    ⟨hfields.1, hfields.2.1, Ascending.zip hfields.2.2 _⟩
  have hflag : flagInstSize.place 1 = 1 := by decide
  have hop : operationField.place x.inst.operation.toNat = 2 * x.inst.operation.toNat := by
    show 2 ^ 1 * (x.inst.operation.toNat % 2 ^ 7) = _
    rw [Nat.mod_eq_of_lt x.inst.operation.isLt, Nat.pow_one]
  rw [Instruction.Inst, InstDef.Inst, toNat_pack hbound, placeSum_cons, placeSum_cons,
    hshaped.bits, hflag, hop, Instruction.shape]
  exact (Nat.add_assoc ..).symm

theorem Instruction.Inst_eq_iff (x y : Instruction) : x.Inst = y.Inst ↔
    x.inst.operation = y.inst.operation ∧ x.shape.payload = y.shape.payload := by
  have hx := x.inst.operation.isLt
  have hy := y.inst.operation.isLt
  rw [← BitVec.toNat_inj, ← BitVec.toNat_inj, x.toNat_Inst, y.toNat_Inst]
  omega

/-! ## Texts -/

/-- Names of blocks: private symbols, told apart, without commas. -/
structure SymbolNames (symbol : Word → String) : Prop where
  injective : Function.Injective symbol
  isPrivate : ∀ a, ∃ s, symbol a = "pg_" ++ s
  noComma : ∀ a, ',' ∉ (symbol a).toList

theorem isDigit_of_mem_repr {n : Nat} {c : Char} (h : c ∈ n.repr.toList) : c.isDigit = true := by
  rw [Nat.toList_repr] at h
  exact Nat.isDigit_of_mem_toDigits (by decide) (by decide) h

theorem mem_intRepr {v : Int} {c : Char} (h : c ∈ v.repr.toList) : c.isDigit = true ∨ c = '-' := by
  cases v with
  | ofNat n => exact .inl (isDigit_of_mem_repr h)
  | negSucc n =>
      have hcons : c ∈ ("-" ++ (n + 1).repr).toList := h
      rw [String.toList_append, List.mem_append] at hcons
      cases hcons with
      | inl hminus => exact .inr (by simpa using hminus)
      | inr hdigit => exact .inl (isDigit_of_mem_repr hdigit)

/-- An operand with the register that stands for all of its encoding. -/
def Operand.generic : Operand → Operand
  | reg r => .reg (.R (HWEncoding r))
  | imm v => .imm v
  | block a => .block a

theorem Shape.map_generic_operands (s : Shape) : s.operands.map Operand.generic = s.operands := by
  cases s <;> rfl

theorem condition_no_blank (kinds : List OperandKind) (operands : List Operand) :
    ' ' ∉ (condition kinds operands).toList := by
  intro h
  rw [condition, String.toList_join, List.mem_flatMap] at h
  obtain ⟨s, hs, hblank⟩ := h
  obtain ⟨p, _, hp⟩ := List.mem_filterMap.mp hs
  split at hp
  · cases hp
    revert hblank
    unfold printCCOperand
    repeat' split
    all_goals decide
  · cases hp

theorem Instruction.mnemonic_no_blank (x : Instruction) : ' ' ∉ x.mnemonic.toList := by
  intro h
  rw [Instruction.mnemonic, InstDef.mnemonic, String.toList_append, List.mem_append] at h
  cases h with
  | inl hasm => exact asm_no_blank x.inst x.mem hasm
  | inr hcond => exact condition_no_blank _ _ hcond

section
variable {symbol : Word → String} (hsymbol : SymbolNames symbol)
include hsymbol

theorem printOperand_no_comma (o : Operand) : ',' ∉ (printOperand symbol o).toList := by
  intro h
  cases o with
  | reg r =>
      rw [printOperand, String.toList_append, List.mem_append] at h
      cases h with
      | inl hr => exact absurd hr (by decide)
      | inr hdigit => exact absurd (isDigit_of_mem_repr hdigit) (by decide)
  | imm v =>
      cases mem_intRepr h with
      | inl hdigit => exact absurd hdigit (by decide)
      | inr hminus => exact absurd hminus (by decide)
  | block a => exact hsymbol.noComma a h

/-- Registers, numbers and symbols are told apart by their first character. -/
theorem generic_of_printOperand {o p : Operand}
    (h : printOperand symbol o = printOperand symbol p) : o.generic = p.generic := by
  have hletter : ∀ (c : Char) (s t : String) (v : Int), c.isDigit = false → c ≠ '-' →
      c ∈ s.toList → s ++ t ≠ v.repr := by
    intro c s t v hdigit hminus hc heq
    have hmem : c ∈ v.repr.toList := by
      rw [← heq, String.toList_append]
      exact List.mem_append_left _ hc
    cases mem_intRepr hmem with
    | inl h => rw [hdigit] at h; cases h
    | inr h => exact hminus h
  have hsymbolNumber : ∀ (a : Word) (v : Int), symbol a ≠ v.repr := by
    intro a v
    obtain ⟨s, hs⟩ := hsymbol.isPrivate a
    rw [hs]
    exact hletter 'p' _ _ _ (by decide) (by decide) (by decide)
  have hregSymbol : ∀ (n : Nat) a, "r" ++ n.repr ≠ symbol a := by
    intro n a heq
    obtain ⟨s, hs⟩ := hsymbol.isPrivate a
    rw [hs] at heq
    have hlist := congrArg String.toList heq
    simp at hlist
  cases o with
  | reg r =>
      cases p with
      | reg q =>
          have hlist := congrArg String.toList h
          simp only [printOperand, String.toList_append, List.append_cancel_left_eq,
            String.toList_inj] at hlist
          have hcode := Fin.ext (Nat.repr_inj.mp hlist)
          rw [Operand.generic, hcode, Operand.generic]
      | imm v => exact absurd h (hletter 'r' _ _ _ (by decide) (by decide) (by decide))
      | block a => exact absurd h (hregSymbol _ _)
  | imm v =>
      cases p with
      | reg q => exact absurd h.symm (hletter 'r' _ _ _ (by decide) (by decide) (by decide))
      | imm w =>
          have hvw := BitVec.eq_of_toInt_eq (Int.repr_inj.mp h)
          rw [hvw]
      | block a => exact absurd h.symm (hsymbolNumber _ _)
  | block a =>
      cases p with
      | reg q => exact absurd h.symm (hregSymbol _ _)
      | imm w => exact absurd h (hsymbolNumber _ _)
      | block b => rw [hsymbol.injective h]

theorem map_generic_of_map_printOperand {os ps : List Operand}
    (h : os.map (printOperand symbol) = ps.map (printOperand symbol)) :
    os.map Operand.generic = ps.map Operand.generic := by
  induction os generalizing ps with
  | nil =>
      rw [List.map_eq_nil_iff.mp h.symm]
  | cons o os ih =>
      cases ps with
      | nil => cases h
      | cons p ps =>
          rw [List.map_cons, List.map_cons, List.cons.injEq] at h ⊢
          exact ⟨generic_of_printOperand hsymbol h.1, ih h.2⟩

theorem Instruction.text_eq_iff (x y : Instruction) : x.text symbol = y.text symbol ↔
    x.mnemonic = y.mnemonic ∧ x.shape.operands = y.shape.operands := by
  obtain ⟨_, _, hx⟩ := x.exists_form
  obtain ⟨_, _, hy⟩ := y.exists_form
  have hcomma : ∀ (s : Shape), ∀ w ∈ s.operands.map (printOperand symbol), ',' ∉ w.toList := by
    intro s w hw
    obtain ⟨o, _, rfl⟩ := List.mem_map.mp hw
    exact printOperand_no_comma hsymbol o
  unfold Instruction.text InstDef.text
  rw [hx.printed, hy.printed]
  constructor
  · intro h
    obtain ⟨hname, hops⟩ :=
      line_inj x.mnemonic_no_blank y.mnemonic_no_blank (hcomma _) (hcomma _) h
    refine ⟨hname, ?_⟩
    have hgeneric := map_generic_of_map_printOperand hsymbol hops
    rw [Shape.map_generic_operands, Shape.map_generic_operands] at hgeneric
    exact hgeneric
  · intro h
    have hname : x.inst.mnemonic x.operands = y.inst.mnemonic y.operands := h.1
    have hops : (x.inst.format.shape x.operands).operands =
      (y.inst.format.shape y.operands).operands := h.2
    rw [hname, hops]

end

end Mandarin.Encoding
