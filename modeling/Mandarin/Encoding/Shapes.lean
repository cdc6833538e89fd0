import Mandarin.Encoding.Instructions

/-! # The operands in the word

All definitions of the table bind their operands in one of nine ways. The shape of an
instruction keeps what the word and the text depend on: the encodings of its registers,
its immediate, or the block it goes to.
-/

namespace Mandarin.Encoding

open Packing

structure Instruction where
  inst : InstDef
  mem : inst ∈ instructions
  operands : List Operand
  admitted : List.Forall₂ (fun kind o => kind.admits o = true) inst.kinds operands

def Instruction.Inst (x : Instruction) : Word := x.inst.Inst x.operands

def Instruction.mnemonic (x : Instruction) : String := x.inst.mnemonic x.operands

def Instruction.text (x : Instruction) (symbol : Word → String) : String :=
  x.inst.text symbol x.operands

/-! ## Shapes -/

inductive Shape where
  | rrr (a b c : Fin 32)
  | rri (a b : Fin 32) (v : Word)
  | rr (a b : Fin 32)
  /-- An immediate in the field of a register. -/
  | rm (a : Fin 32) (v : Word)
  | ri (a : Fin 32) (v : Word)
  | r (a : Fin 32)
  | i (v : Word)
  | block (address : Word)
  | none
  deriving DecidableEq, Repr

def Format.shape (format : Format) (operands : List Operand) : Shape :=
  match format, operands with
  | .Inst32MD3R, [.reg a, .reg b, .reg c] => .rrr (HWEncoding a) (HWEncoding b) (HWEncoding c)
  | .Inst32MD3I, [.reg a, .reg b, .imm v] => .rri (HWEncoding a) (HWEncoding b) v
  | .Inst32MD2R, [.reg a, .reg b] => .rr (HWEncoding a) (HWEncoding b)
  | .Inst32MD2R, [.reg a, .imm v] => .rm (HWEncoding a) v
  | .Inst32MD2I, [.reg a, .imm v] => .ri (HWEncoding a) v
  | .Inst32MD1R, [.reg a] => .r (HWEncoding a)
  | .Inst32MD1I, .reg a :: _ => .r (HWEncoding a)
  | .Inst32MD1I, .imm v :: _ => .i v
  | .Inst32MD1I, .block t :: _ => .block t
  | _, _ => .none

def Instruction.shape (x : Instruction) : Shape := x.inst.format.shape x.operands

namespace Shape

/-- The bits above the operation. -/
def payload : Shape → Nat
  | rrr a b c => 32 * a + 1024 * b + 32768 * c
  | rri a b v => a + 32 * b + 1024 * (v.toNat % 2 ^ 14)
  | rr a b => 32 * a + 1024 * b
  | rm a v => 32 * a + 1024 * (v.toNat % 2 ^ 5)
  | ri a v => a + 32 * (v.toNat % 2 ^ 19)
  | r a => a
  | i v => v.toNat % 2 ^ 24
  | block t => t.toNat % 2 ^ 24
  | none => 0

/-- The operands behind the name, a register standing for all of its encoding. -/
def operands : Shape → List Operand
  | rrr a b c => [.reg (.R a), .reg (.R b), .reg (.R c)]
  | rri a b v => [.reg (.R a), .reg (.R b), .imm v]
  | rr a b => [.reg (.R a), .reg (.R b)]
  | rm a v => [.reg (.R a), .imm v]
  | ri a v => [.reg (.R a), .imm v]
  | r a => [.reg (.R a)]
  | i v => [.imm v]
  | block t => [.block t]
  | none => []

end Shape

/-! ## Forms -/

inductive Form where
  | rrr
  | rri (p : Predicate)
  | rr
  | rm (p : Predicate)
  | ri (p : Predicate)
  | r
  | i (p : Predicate)
  | block
  | none
  deriving DecidableEq, Repr

def form? (format : Format) (kinds : List OperandKind) : Option Form :=
  match format, kinds with
  | .Inst32MD3R, [.regs _, .regs _, .regs _] => some .rrr
  | .Inst32MD3I, [.regs _, .regs _, .i32imm p] => some (.rri p)
  | .Inst32MD2R, [.regs _, .regs _] => some .rr
  | .Inst32MD2R, [.regs _, .i32imm p] => some (.rm p)
  | .Inst32MD2I, [.regs _, .i32imm p] => some (.ri p)
  | .Inst32MD1R, [.regs _] => some .r
  | .Inst32MD1I, [.regs _] => some .r
  | .Inst32MD1I, [.regs _, .cc] => some .r
  | .Inst32MD1I, [.i32imm p] => some (.i p)
  | .Inst32MD1I, [.jmptarget] => some .block
  | .Inst32MD1I, [.jmptarget, .cc] => some .block
  | .Inst32MD0, [] => some .none
  | _, _ => .none

inductive Form.Has : Form → Shape → Prop
  | rrr (a b c : Fin 32) : Has .rrr (.rrr a b c)
  | rri {p : Predicate} (a b : Fin 32) {v : Word} (h : p.holds v = true) : Has (.rri p) (.rri a b v)
  | rr (a b : Fin 32) : Has .rr (.rr a b)
  | rm {p : Predicate} (a : Fin 32) {v : Word} (h : p.holds v = true) : Has (.rm p) (.rm a v)
  | ri {p : Predicate} (a : Fin 32) {v : Word} (h : p.holds v = true) : Has (.ri p) (.ri a v)
  | r (a : Fin 32) : Has .r (.r a)
  | i {p : Predicate} {v : Word} (h : p.holds v = true) : Has (.i p) (.i v)
  | block {t : Word} (h : Isel.isUInt 19 t = true) : Has .block (.block t)
  | none : Has .none .none

theorem admits_regs {rc : RegClass} {o : Operand} (h : (OperandKind.regs rc).admits o = true) :
    ∃ r, o = .reg r := by
  cases o with
  | reg r => exact ⟨r, rfl⟩
  | imm v => cases h
  | block t => cases h

theorem admits_i32imm {p : Predicate} {o : Operand} (h : (OperandKind.i32imm p).admits o = true) :
    ∃ v, o = .imm v ∧ p.holds v = true := by
  cases o with
  | reg r => cases h
  | imm v => exact ⟨v, rfl, h⟩
  | block t => cases h

theorem admits_jmptarget {o : Operand} (h : OperandKind.jmptarget.admits o = true) :
    ∃ t, o = .block t ∧ Isel.isUInt 19 t = true := by
  cases o with
  | reg r => cases h
  | imm v => cases h
  | block t => exact ⟨t, rfl, h⟩

theorem admits_cc {o : Operand} (h : OperandKind.cc.admits o = true) : ∃ c, o = .imm c := by
  cases o with
  | reg r => cases h
  | imm v => exact ⟨v, rfl⟩
  | block t => cases h

/-- Word and text of an instruction depend on its shape only. -/
structure Shaped (format : Format) (kinds : List OperandKind) (operands : List Operand)
    (form : Form) : Prop where
  has : form.Has (format.shape operands)
  bits : placeSum (format.fields.zip (operands.map Operand.value)) =
    256 * (format.shape operands).payload
  printed : ∀ symbol, (printed kinds operands).map (printOperand symbol) =
    (format.shape operands).operands.map (printOperand symbol)

attribute [local simp] Format.fields Format.shape Shape.payload Operand.value Slice.place in
theorem shaped_of_form {format : Format} {kinds : List OperandKind} {operands : List Operand}
    {form : Form} (hform : form? format kinds = some form)
    (hops : List.Forall₂ (fun kind o => kind.admits o = true) kinds operands) :
    Shaped format kinds operands form := by
  unfold form? at hform
  -- a case for each format with the operand kinds of its definitions
  split at hform
  case h_1 =>
      obtain _ | ⟨ha, _ | ⟨hb, _ | ⟨hc, _ | _⟩⟩⟩ := hops
      obtain ⟨a, rfl⟩ := admits_regs ha
      obtain ⟨b, rfl⟩ := admits_regs hb
      obtain ⟨c, rfl⟩ := admits_regs hc
      cases hform
      exact ⟨.rrr _ _ _, by simp; omega, fun _ => rfl⟩
  case h_2 =>
      obtain _ | ⟨ha, _ | ⟨hb, _ | ⟨hc, _ | _⟩⟩⟩ := hops
      obtain ⟨a, rfl⟩ := admits_regs ha
      obtain ⟨b, rfl⟩ := admits_regs hb
      obtain ⟨v, rfl, hv⟩ := admits_i32imm hc
      cases hform
      exact ⟨.rri _ _ hv, by simp; omega, fun _ => rfl⟩
  case h_3 =>
      obtain _ | ⟨ha, _ | ⟨hb, _ | _⟩⟩ := hops
      obtain ⟨a, rfl⟩ := admits_regs ha
      obtain ⟨b, rfl⟩ := admits_regs hb
      cases hform
      exact ⟨.rr _ _, by simp; omega, fun _ => rfl⟩
  case h_4 =>
      obtain _ | ⟨ha, _ | ⟨hb, _ | _⟩⟩ := hops
      obtain ⟨a, rfl⟩ := admits_regs ha
      obtain ⟨v, rfl, hv⟩ := admits_i32imm hb
      cases hform
      exact ⟨.rm _ hv, by simp; omega, fun _ => rfl⟩
  case h_5 =>
      obtain _ | ⟨ha, _ | ⟨hb, _ | _⟩⟩ := hops
      obtain ⟨a, rfl⟩ := admits_regs ha
      obtain ⟨v, rfl, hv⟩ := admits_i32imm hb
      cases hform
      exact ⟨.ri _ hv, by simp; omega, fun _ => rfl⟩
  case h_6 =>
      obtain _ | ⟨ha, _ | _⟩ := hops
      obtain ⟨a, rfl⟩ := admits_regs ha
      cases hform
      exact ⟨.r _, by simp, fun _ => rfl⟩
  case h_7 =>
      obtain _ | ⟨ha, _ | _⟩ := hops
      obtain ⟨a, rfl⟩ := admits_regs ha
      cases hform
      exact ⟨.r _, by simp; omega, fun _ => rfl⟩
  case h_8 =>
      obtain _ | ⟨ha, _ | ⟨hb, _ | _⟩⟩ := hops
      obtain ⟨a, rfl⟩ := admits_regs ha
      obtain ⟨c, rfl⟩ := admits_cc hb
      cases hform
      exact ⟨.r _, by simp; omega, fun _ => rfl⟩
  case h_9 =>
      obtain _ | ⟨ha, _ | _⟩ := hops
      obtain ⟨v, rfl, hv⟩ := admits_i32imm ha
      cases hform
      exact ⟨.i hv, by simp, fun _ => rfl⟩
  case h_10 =>
      obtain _ | ⟨ha, _ | _⟩ := hops
      obtain ⟨t, rfl, ht⟩ := admits_jmptarget ha
      cases hform
      exact ⟨.block ht, by simp, fun _ => rfl⟩
  case h_11 =>
      obtain _ | ⟨ha, _ | ⟨hb, _ | _⟩⟩ := hops
      obtain ⟨t, rfl, ht⟩ := admits_jmptarget ha
      obtain ⟨c, rfl⟩ := admits_cc hb
      cases hform
      exact ⟨.block ht, by simp, fun _ => rfl⟩
  case h_12 =>
      cases hops
      cases hform
      exact ⟨.none, by simp, fun _ => rfl⟩
  case h_13 => cases hform

end Mandarin.Encoding
