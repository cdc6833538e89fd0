import Mandarin.Encoding.Collisions

/-! # Instructions with one text

The name and the operands in a text leave a few instructions undecided: conversions,
which are both printed as `ftoi`, and the integer and the float store to an address,
which have two formats.
-/

namespace Mandarin.Encoding

/-! ## Names -/

def conditionNames : List String := ["eq", "ne", "gr", "ls", "ge", "le", "cc_error"]

theorem printCCOperand_mem (c : Word) : printCCOperand c ∈ conditionNames := by
  unfold printCCOperand
  repeat' split
  all_goals decide

theorem condition_eq_empty {kinds : List OperandKind} (h : .cc ∉ kinds) (operands : List Operand) :
    condition kinds operands = "" := by
  rw [condition, List.filterMap_eq_nil_iff.mpr]
  · rfl
  · intro p hp
    split
    · exact absurd (List.of_mem_zip hp).1 h
    · rfl

theorem conditional : ∀ d ∈ instructions, .cc ∈ d.kinds → d = JCCi ∨ d = JCCr := by
  decide +kernel

theorem conditional_name : ∀ d ∈ instructions, .cc ∉ d.kinds → ∀ s ∈ conditionNames,
    "j" ++ s ≠ d.asm := by
  decide +kernel

theorem Instruction.condition_mem {x : Instruction} (h : .cc ∈ x.inst.kinds) :
    x.inst.asm = "j" ∧ condition x.inst.kinds x.operands ∈ conditionNames := by
  obtain ⟨d, hmem, operands, hops⟩ := x
  rcases conditional d hmem h with rfl | rfl
  all_goals
    obtain _ | ⟨ha, _ | ⟨hb, _ | _⟩⟩ := hops
    obtain ⟨c, rfl⟩ := admits_cc hb
    refine ⟨rfl, ?_⟩
    exact printCCOperand_mem c

theorem Instruction.asm_eq {x y : Instruction} (h : x.mnemonic = y.mnemonic) :
    x.inst.asm = y.inst.asm := by
  rw [Instruction.mnemonic, Instruction.mnemonic, InstDef.mnemonic, InstDef.mnemonic] at h
  by_cases hx : .cc ∈ x.inst.kinds <;> by_cases hy : .cc ∈ y.inst.kinds
  · rw [(Instruction.condition_mem hx).1, (Instruction.condition_mem hy).1]
  · obtain ⟨hasm, hcond⟩ := Instruction.condition_mem hx
    rw [condition_eq_empty hy, String.append_empty, hasm] at h
    exact absurd h (conditional_name y.inst y.mem hy _ hcond)
  · obtain ⟨hasm, hcond⟩ := Instruction.condition_mem hy
    rw [condition_eq_empty hx, String.append_empty, hasm] at h
    exact absurd h.symm (conditional_name x.inst x.mem hx _ hcond)
  · rwa [condition_eq_empty hx, condition_eq_empty hy, String.append_empty,
      String.append_empty] at h

/-! ## Operands -/

/-- The operands of a text determine the shape, up to the format of a register with an
immediate. -/
theorem Shape.eq_of_operands {s t : Shape} (h : s.operands = t.operands) :
    s = t ∨ ∃ a v, (s = .rm a v ∧ t = .ri a v) ∨ (s = .ri a v ∧ t = .rm a v) := by
  cases s <;> cases t <;> simp_all [Shape.operands]

theorem payload_rm_eq_ri {a : Fin 32} {v : Word} (hv : Isel.isUInt 19 v = true) :
    (Shape.rm a v).payload = (Shape.ri a v).payload ↔ a = 0 ∧ v = 0 := by
  have hlt : v.toNat < 2 ^ 19 := of_decide_eq_true hv
  rw [Fin.ext_iff, ← BitVec.toNat_inj]
  simp only [Shape.payload, Fin.val_zero, BitVec.ofNat_eq_ofNat, BitVec.toNat_ofNat]
  omega

/-! ## The table -/

/-- A conversion to an integer and one from an integer, under one name. -/
def Conversions (d e : InstDef) : Prop := d = FTOIrr ∧ (e = ITOFrr ∨ e = ITOFri)

instance (d e : InstDef) : Decidable (Conversions d e) := inferInstanceAs (Decidable (_ ∧ _))

theorem operation_eq_or : ∀ d ∈ instructions, ∀ e ∈ instructions, d.asm = e.asm →
    d.operation = e.operation ∨ Conversions d e ∨ Conversions e d := by
  decide +kernel

def Form.isMixed : Form → Form → Bool
  | .rm _, .ri _ => true
  | _, _ => false

theorem mixed_stores : ∀ d ∈ instructions, ∀ e ∈ instructions, d.asm = e.asm →
    ((form? d.format d.kinds).getD .none).isMixed ((form? e.format e.kinds).getD .none) = true →
      d = STOREfri ∧ e = STOREri := by
  decide +kernel

/-! ## Operands of the undecided instructions -/

theorem generic_of_admits {o : Operand} (h : GenericRegs.admits o = true) :
    ∃ n, o = .reg (.R n) := by
  obtain ⟨r, rfl⟩ := admits_regs h
  cases r with
  | R n => exact ⟨n, rfl⟩
  | _ => cases h

theorem admits_pair {operands : List Operand}
    (h : List.Forall₂ (fun kind o => kind.admits o = true) [GenericRegs, GenericRegs] operands) :
    ∃ a b, operands = [.reg (.R a), .reg (.R b)] := by
  obtain _ | ⟨ha, _ | ⟨hb, _ | _⟩⟩ := h
  obtain ⟨a, rfl⟩ := generic_of_admits ha
  obtain ⟨b, rfl⟩ := generic_of_admits hb
  exact ⟨a, b, rfl⟩

theorem admits_number {p : Predicate} {operands : List Operand}
    (h : List.Forall₂ (fun kind o => kind.admits o = true) [GenericRegs, .i32imm p] operands) :
    ∃ a v, operands = [.reg (.R a), .imm v] ∧ p.holds v = true := by
  obtain _ | ⟨ha, _ | ⟨hv, _ | _⟩⟩ := h
  obtain ⟨a, rfl⟩ := generic_of_admits ha
  obtain ⟨v, rfl, hv⟩ := admits_i32imm hv
  exact ⟨a, v, rfl, hv⟩

theorem Instruction.admitted_of_inst {x : Instruction} {d : InstDef} (h : x.inst = d) :
    List.Forall₂ (fun kind o => kind.admits o = true) d.kinds x.operands := by
  rw [← h]
  exact x.admitted

/-! ## When texts determine words -/

/-- Two conversions of one register, or the two stores of one register to one address,
other than `store r0, 0`. -/
def Ambiguous (x y : Instruction) : Prop :=
  x.operands = y.operands ∧
    ((x.inst = FTOIrr ∧ y.inst = ITOFrr) ∨
      (x.inst = STOREri ∧ y.inst = STOREfri ∧ x.operands ≠ [.reg (.R 0), .imm 0]))

theorem Ambiguous.text_eq {x y : Instruction} (h : Ambiguous x y) (symbol : Word → String) :
    x.text symbol = y.text symbol := by
  obtain ⟨hops, hinst⟩ := h
  rw [Instruction.text, Instruction.text, hops]
  rcases hinst with ⟨hx, hy⟩ | ⟨hx, hy, _⟩
  · rw [hx, hy]
    rfl
  · rw [hx, hy]
    rfl

theorem Ambiguous.Inst_ne {x y : Instruction} (h : Ambiguous x y) : x.Inst ≠ y.Inst := by
  rw [Ne, Instruction.Inst_eq_iff]
  intro heq
  obtain ⟨hoperation, hpayload⟩ := heq
  obtain ⟨hops, hinst⟩ := h
  rcases hinst with ⟨hx, hy⟩ | ⟨hx, hy, hother⟩
  · rw [hx, hy] at hoperation
    revert hoperation
    decide
  · obtain ⟨a, v, hv, hrange⟩ := admits_number (Instruction.admitted_of_inst hx)
    rw [Instruction.shape, Instruction.shape, ← hops, hx, hy, hv] at hpayload
    obtain ⟨rfl, rfl⟩ := (payload_rm_eq_ri hrange).mp hpayload.symm
    exact hother hv

theorem conversions_ambiguous {x y : Instruction} (h : Conversions x.inst y.inst)
    (hops : x.shape.operands = y.shape.operands) : Ambiguous x y := by
  obtain ⟨hx, hy⟩ := h
  obtain ⟨a, b, hxops⟩ := admits_pair (Instruction.admitted_of_inst hx)
  rw [Instruction.shape, hx, hxops] at hops
  cases hy with
  | inl hy =>
      obtain ⟨c, d, hyops⟩ := admits_pair (Instruction.admitted_of_inst hy)
      rw [Instruction.shape, hy, hyops] at hops
      have hsame : x.operands = y.operands := by
        rw [hxops, hyops]
        exact hops
      exact ⟨hsame, .inl ⟨hx, hy⟩⟩
  | inr hy =>
      -- a number is not printed as a register
      obtain ⟨c, v, hyops, _⟩ := admits_number (Instruction.admitted_of_inst hy)
      rw [Instruction.shape, hy, hyops] at hops
      cases hops

theorem Form.isMixed_of_has {form form' : Form} {a : Fin 32} {v : Word}
    (h : form.Has (.rm a v)) (h' : form'.Has (.ri a v)) : form.isMixed form' = true := by
  cases h
  cases h'
  rfl

theorem stores_ambiguous {x y : Instruction} {a : Fin 32} {v : Word}
    (hasm : x.inst.asm = y.inst.asm) (hx : x.shape = .ri a v) (hy : y.shape = .rm a v)
    (hne : x.Inst ≠ y.Inst) : Ambiguous x y := by
  obtain ⟨form, hform, hshaped⟩ := x.exists_form
  obtain ⟨form', hform', hshaped'⟩ := y.exists_form
  have hhas : form.Has x.shape := hshaped.has
  have hhas' : form'.Has y.shape := hshaped'.has
  rw [hx] at hhas
  rw [hy] at hhas'
  have hmixed := mixed_stores y.inst y.mem x.inst x.mem hasm.symm
  rw [hform, hform', Option.getD_some, Option.getD_some] at hmixed
  obtain ⟨hyinst, hxinst⟩ := hmixed (Form.isMixed_of_has hhas' hhas)
  obtain ⟨b, w, hxops, _⟩ := admits_number (Instruction.admitted_of_inst hxinst)
  obtain ⟨c, u, hyops, _⟩ := admits_number (Instruction.admitted_of_inst hyinst)
  rw [Instruction.shape, hxinst, hxops] at hx
  rw [Instruction.shape, hyinst, hyops] at hy
  cases hx
  cases hy
  refine ⟨hxops.trans hyops.symm, .inr ⟨hxinst, hyinst, ?_⟩⟩
  intro hzero
  apply hne
  rw [Instruction.Inst, Instruction.Inst, hxinst, hyinst, hyops, ← hxops, hzero]
  rfl

theorem ambiguous_of_alike {x y : Instruction} (hname : x.mnemonic = y.mnemonic)
    (hops : x.shape.operands = y.shape.operands) (hne : x.Inst ≠ y.Inst) :
    Ambiguous x y ∨ Ambiguous y x := by
  have hasm := Instruction.asm_eq hname
  rcases operation_eq_or x.inst x.mem y.inst y.mem hasm with hop | hconv | hconv
  · rcases Shape.eq_of_operands hops with hshape | ⟨a, v, ⟨hx, hy⟩ | ⟨hx, hy⟩⟩
    · exact absurd ((x.Inst_eq_iff y).mpr ⟨hop, congrArg Shape.payload hshape⟩) hne
    · exact .inr (stores_ambiguous hasm.symm hy hx hne.symm)
    · exact .inl (stores_ambiguous hasm hx hy hne)
  · exact .inl (conversions_ambiguous hconv hops)
  · exact .inr (conversions_ambiguous hconv hops.symm)

/-- Instructions printed alike have one word exactly when they are not ambiguous. -/
theorem text_distinguishes_iff {symbol : Word → String} (hsymbol : SymbolNames symbol)
    (x y : Instruction) :
    (x.text symbol = y.text symbol → x.Inst = y.Inst) ↔ ¬ (Ambiguous x y ∨ Ambiguous y x) := by
  constructor
  · intro h hambiguous
    cases hambiguous with
    | inl hxy => exact hxy.Inst_ne (h (hxy.text_eq symbol))
    | inr hyx => exact hyx.Inst_ne (h (hyx.text_eq symbol).symm).symm
  · intro h htext
    obtain ⟨hname, hops⟩ := (Instruction.text_eq_iff hsymbol x y).mp htext
    by_contra hne
    exact h (ambiguous_of_alike hname hops hne)

/-- The two stores of `r0` to address 0. -/
theorem text_distinguishes_iff_stores : ∃ x y : Instruction, x.inst ≠ y.inst ∧
    x.text blockSymbol = y.text blockSymbol ∧ x.Inst = y.Inst := by
  let x : Instruction := ⟨STOREri, mem_instructions (by decide +kernel),
    [.reg (.R 0), .imm 0], .cons rfl (.cons rfl .nil)⟩
  let y : Instruction := ⟨STOREfri, mem_instructions (by decide +kernel),
    [.reg (.R 0), .imm 0], .cons rfl (.cons rfl .nil)⟩
  have hclear : ¬ (Ambiguous x y ∨ Ambiguous y x) := by
    intro h
    rcases h with ⟨_, ⟨hx, _⟩ | ⟨_, _, hother⟩⟩ | ⟨_, ⟨hx, _⟩ | ⟨hx, _⟩⟩
    · exact absurd hx (show STOREri ≠ FTOIrr by decide)
    · exact hother rfl
    · exact absurd hx (show STOREfri ≠ FTOIrr by decide)
    · exact absurd hx (show STOREfri ≠ STOREri by decide)
  have htext : x.text blockSymbol = y.text blockSymbol := rfl
  exact ⟨x, y, show STOREri ≠ STOREfri by decide, htext,
    (text_distinguishes_iff symbolNames_blockSymbol x y).mpr hclear htext⟩

end Mandarin.Encoding
