import Mandarin.Encoding.Words

/-! # Instructions with one word

Two instructions with one operation have the same word when their payloads agree. What
is printed then differs in a few ways only: two names for the same operands, a register
where the other has an immediate or an address, an immediate cut to the field of a
register, and a conditional jump, which has the operation of `ADD`.
-/

namespace Mandarin.Encoding

open Immediate (Field)

/-! ## Collisions -/

/-- Operands that leave the same payload but are not printed alike behind the names `m`
and `n`. -/
inductive Clash (m n : String) : Shape → Shape → Prop
  /-- The same operands with two names, or with two conditions. -/
  | name (s : Shape) (h : m ≠ n) : Clash m n s s
  /-- Two registers in the place of an immediate, the first one in that of the second. -/
  | rrr_rri (a b c : Fin 32) : Clash m n (.rrr a b c) (.rri 0 a (BitVec.ofNat 32 (b + 32 * c)))
  | rr_ri (a b : Fin 32) : Clash m n (.rr a b) (.ri 0 (BitVec.ofNat 32 (a + 32 * b)))
  /-- An immediate of which the field of a register keeps five bits. -/
  | rm_rr (a : Fin 32) (v : Word) : Clash m n (.rm a v) (.rr a (Fin.ofNat 32 v.toNat))
  | rm_rm (a : Fin 32) (v w : Word) (hcut : v.toNat % 32 = w.toNat % 32) (h : v ≠ w) :
      Clash m n (.rm a v) (.rm a w)
  | rm_ri (a : Fin 32) (v : Word) (h : m ≠ n ∨ a ≠ 0 ∨ v ≠ 0) :
      Clash m n (.rm a v) (.ri 0 (BitVec.ofNat 32 (a + 32 * (v.toNat % 32))))
  /-- A jump or call through a register with the number of the address. -/
  | r_block (a : Fin 32) : Clash m n (.r a) (.block (BitVec.ofNat 32 a))
  | r_i (a : Fin 32) : Clash m n (.r a) (.i (BitVec.ofNat 32 a))
  /-- A conditional jump and an addition. -/
  | rrr_block (a b c : Fin 32) :
      Clash m n (.rrr a b c) (.block (BitVec.ofNat 32 (32 * a + 1024 * b + 32768 * c)))
  | rrr_r : Clash m n (.rrr 0 0 0) (.r 0)
  | rri_block (a b : Fin 32) (v : Word) (hv : v.toNat < 512) :
      Clash m n (.rri a b v) (.block (BitVec.ofNat 32 (a + 32 * b + 1024 * v.toNat)))
  | rri_r (a : Fin 32) : Clash m n (.rri a 0 0) (.r a)

theorem Clash.payload_eq {m n : String} {s t : Shape} (h : Clash m n s t) :
    s.payload = t.payload := by
  cases h with
  | name s h => rfl
  | rrr_rri a b c =>
      simp only [Shape.payload, BitVec.toNat_ofNat, Fin.val_zero]
      omega
  | rr_ri a b =>
      simp only [Shape.payload, BitVec.toNat_ofNat, Fin.val_zero]
      omega
  | rm_rr a v =>
      simp only [Shape.payload, Fin.ofNat]
      omega
  | rm_rm a v w hcut h =>
      simp only [Shape.payload]
      omega
  | rm_ri a v h =>
      simp only [Shape.payload, BitVec.toNat_ofNat, Fin.val_zero]
      omega
  | r_block a =>
      simp only [Shape.payload, BitVec.toNat_ofNat]
      omega
  | r_i a =>
      simp only [Shape.payload, BitVec.toNat_ofNat]
      omega
  | rrr_block a b c =>
      simp only [Shape.payload, BitVec.toNat_ofNat]
      omega
  | rrr_r => rfl
  | rri_block a b v hv =>
      simp only [Shape.payload, BitVec.toNat_ofNat]
      omega
  | rri_r a => rfl

theorem Clash.differs {m n : String} {s t : Shape} (h : Clash m n s t) :
    ¬ (m = n ∧ s.operands = t.operands) := by
  intro heq
  obtain ⟨hname, hops⟩ := heq
  cases h with
  | name s h => exact h hname
  | rrr_rri a b c => simp [Shape.operands] at hops
  | rr_ri a b => simp [Shape.operands] at hops
  | rm_rr a v => simp [Shape.operands] at hops
  | rm_rm a v w hcut h =>
      simp only [Shape.operands, List.cons.injEq, Operand.imm.injEq, true_and, and_true] at hops
      exact h hops
  | rm_ri a v h =>
      simp only [Shape.operands, List.cons.injEq, Operand.imm.injEq, Operand.reg.injEq,
        Reg.R.injEq, and_true] at hops
      obtain ⟨ha, hv⟩ := hops
      subst ha
      have htoNat := congrArg BitVec.toNat hv
      rw [BitVec.toNat_ofNat, Fin.val_zero] at htoNat
      -- an immediate of 32 times its low five bits is 0
      have hzero : v = 0 := by
        apply BitVec.eq_of_toNat_eq
        show v.toNat = 0
        omega
      rcases h with h | h | h
      · exact h hname
      · exact h rfl
      · exact h hzero
  | r_block a => simp [Shape.operands] at hops
  | r_i a => simp [Shape.operands] at hops
  | rrr_block a b c => simp [Shape.operands] at hops
  | rrr_r => simp [Shape.operands] at hops
  | rri_block a b v hv => simp [Shape.operands] at hops
  | rri_r a => simp [Shape.operands] at hops

/-! ## Ranges -/

def Predicate.field : Predicate → Field
  | uimm14 => ⟨14, false⟩
  | simm14 => ⟨14, true⟩
  | uimm19 | addr => ⟨19, false⟩
  | simm19 => ⟨19, true⟩

theorem Predicate.fits {p : Predicate} {v : Word} (h : p.holds v = true) : p.field.fits v := by
  cases p with
  | uimm14 => exact Isel.fits_of_isUInt h
  | simm14 => exact Isel.fits_of_isInt h
  | uimm19 => exact Isel.fits_of_isUInt h
  | simm19 => exact Isel.fits_of_isInt h
  | addr => exact Isel.fits_of_isUInt h

theorem Predicate.eq_of_mod {p : Predicate} {v w : Word} (hv : p.holds v = true)
    (hw : p.holds w = true)
    (h : v.toNat % 2 ^ p.field.width = w.toNat % 2 ^ p.field.width) : v = w := by
  have hwidth : 0 < p.field.width ∧ p.field.width ≤ 32 := by cases p <;> decide
  have hbits : p.field.encode v = p.field.encode w := by
    apply BitVec.eq_of_toNat_eq
    rw [Field.encode, Field.encode, BitVec.toNat_setWidth, BitVec.toNat_setWidth, h]
  rw [← Field.read_encode hwidth.1 hwidth.2 (Predicate.fits hv), hbits,
    Field.read_encode hwidth.1 hwidth.2 (Predicate.fits hw)]

theorem Predicate.holds_of_lt {n : Nat} (p : Predicate) (hn : n < 1024) :
    p.holds (BitVec.ofNat 32 n) = true := by
  have htoNat : (BitVec.ofNat 32 n).toNat = n := by
    rw [BitVec.toNat_ofNat]
    omega
  have htoInt : (BitVec.ofNat 32 n).toInt = n := by
    rw [BitVec.toInt_eq_toNat_of_lt (by omega), htoNat]
  cases p <;>
    simp only [Predicate.holds, Isel.uimm14, Isel.simm14, Isel.uimm19, Isel.simm19, Isel.isUInt,
      Isel.isInt, htoNat, htoInt, decide_eq_true_eq] <;>
    omega

theorem Predicate.eq_ofNat {p : Predicate} {v : Word} {n : Nat} (hv : p.holds v = true)
    (hn : n < 1024) (h : v.toNat % 2 ^ p.field.width = n) : v = BitVec.ofNat 32 n := by
  apply Predicate.eq_of_mod hv (p.holds_of_lt hn)
  have hle : 2 ^ 14 ≤ 2 ^ p.field.width := by cases p <;> decide
  have htoNat : (BitVec.ofNat 32 n).toNat = n := by
    rw [BitVec.toNat_ofNat]
    omega
  rw [h, htoNat, Nat.mod_eq_of_lt (by omega)]

theorem address_lt {t : Word} (h : Isel.isUInt 19 t = true) : t.toNat < 2 ^ 19 :=
  of_decide_eq_true h

theorem eq_ofNat_of_toNat {t : Word} {n : Nat} (h : t.toNat = n) : t = BitVec.ofNat 32 n := by
  rw [← h, BitVec.ofNat_toNat, BitVec.setWidth_eq]

/-! ## Equal payloads of one form -/

/-- The fields of the form hold its operands whole. -/
def Form.determines : Form → Bool
  | .rri p => p.field.width = 14
  | .rm _ => false
  | .ri p => p.field.width = 19
  | .i p => p = .uimm19
  | .rrr | .rr | .r | .block | .none => true

theorem Form.Has.eq_of_payload_eq {form : Form} {s t : Shape} (hwhole : form.determines = true)
    (hs : form.Has s) (ht : form.Has t) (h : s.payload = t.payload) : s = t := by
  cases hs with
  | rrr a b c =>
      cases ht with
      | rrr a' b' c' =>
          simp only [Shape.payload] at h
          simp only [Shape.rrr.injEq, Fin.ext_iff]
          omega
  | @rri p a b v hv =>
      cases ht with
      | @rri _ a' b' w hw =>
          have hwidth : p.field.width = 14 := of_decide_eq_true hwhole
          simp only [Shape.payload] at h
          have hvw : v = w := by
            apply Predicate.eq_of_mod hv hw
            rw [hwidth]
            omega
          simp only [Shape.rri.injEq, Fin.ext_iff, hvw, and_true]
          omega
  | rr a b =>
      cases ht with
      | rr a' b' =>
          simp only [Shape.payload] at h
          simp only [Shape.rr.injEq, Fin.ext_iff]
          omega
  | @rm p a v hv => cases hwhole
  | @ri p a v hv =>
      cases ht with
      | @ri _ a' w hw =>
          have hwidth : p.field.width = 19 := of_decide_eq_true hwhole
          simp only [Shape.payload] at h
          have hvw : v = w := by
            apply Predicate.eq_of_mod hv hw
            rw [hwidth]
            omega
          simp only [Shape.ri.injEq, Fin.ext_iff, hvw, and_true]
          omega
  | r a =>
      cases ht with
      | r a' => rw [Fin.ext h]
  | @i p v hv =>
      cases ht with
      | @i _ w hw =>
          have hp : p = .uimm19 := of_decide_eq_true hwhole
          subst hp
          have hvlt := address_lt hv
          have hwlt := address_lt hw
          simp only [Shape.payload] at h
          rw [BitVec.eq_of_toNat_eq (show v.toNat = w.toNat by omega)]
  | @block u hu =>
      cases ht with
      | @block t ht =>
          have hult := address_lt hu
          have htlt := address_lt ht
          simp only [Shape.payload] at h
          rw [BitVec.eq_of_toNat_eq (show u.toNat = t.toNat by omega)]
  | none =>
      cases ht with
      | none => rfl

/-! ## Equal payloads of two forms -/

section
variable {m n : String} {p : Predicate} {a b c a' b' : Fin 32} {v w t : Word}

theorem clash_rrr_rri (hwidth : p.field.width = 14) (hv : p.holds v = true)
    (h : (Shape.rrr a b c).payload = (Shape.rri a' b' v).payload) :
    Clash m n (.rrr a b c) (.rri a' b' v) := by
  simp only [Shape.payload] at h
  have hveq : v = BitVec.ofNat 32 (b + 32 * c) := by
    apply Predicate.eq_ofNat hv (by omega)
    rw [hwidth]
    omega
  have ha : a' = 0 := by omega
  have hb : b' = a := by omega
  rw [ha, hb, hveq]
  exact .rrr_rri a b c

theorem clash_rrr_block (ht : Isel.isUInt 19 t = true)
    (h : (Shape.rrr a b c).payload = (Shape.block t).payload) :
    Clash m n (.rrr a b c) (.block t) := by
  have hlt := address_lt ht
  simp only [Shape.payload] at h
  have hteq : t = BitVec.ofNat 32 (32 * a + 1024 * b + 32768 * c) := eq_ofNat_of_toNat (by omega)
  rw [hteq]
  exact .rrr_block a b c

theorem clash_rrr_r (h : (Shape.rrr a b c).payload = (Shape.r a').payload) :
    Clash m n (.rrr a b c) (.r a') := by
  simp only [Shape.payload] at h
  have ha : a = 0 := by omega
  have hb : b = 0 := by omega
  have hc : c = 0 := by omega
  have ha' : a' = 0 := by omega
  rw [ha, hb, hc, ha']
  exact .rrr_r

theorem clash_rri_block (hwidth : p.field.width = 14) (hv : p.holds v = true)
    (ht : Isel.isUInt 19 t = true) (h : (Shape.rri a b v).payload = (Shape.block t).payload) :
    Clash m n (.rri a b v) (.block t) := by
  have hlt := address_lt ht
  simp only [Shape.payload] at h
  -- the address leaves nine bits to the immediate
  have hveq : v = BitVec.ofNat 32 (v.toNat % 2 ^ 14) := by
    apply Predicate.eq_ofNat hv (by omega)
    rw [hwidth]
  have hvlt : v.toNat < 512 := by
    have htoNat := congrArg BitVec.toNat hveq
    rw [BitVec.toNat_ofNat] at htoNat
    omega
  have hteq : t = BitVec.ofNat 32 (a + 32 * b + 1024 * v.toNat) := eq_ofNat_of_toNat (by omega)
  rw [hteq]
  exact .rri_block a b v hvlt

theorem clash_rri_r (hwidth : p.field.width = 14) (hv : p.holds v = true)
    (h : (Shape.rri a b v).payload = (Shape.r a').payload) : Clash m n (.rri a b v) (.r a') := by
  simp only [Shape.payload] at h
  have hveq : v = BitVec.ofNat 32 0 := by
    apply Predicate.eq_ofNat hv (by decide)
    rw [hwidth]
    omega
  have hb : b = 0 := by omega
  have ha : a' = a := by omega
  rw [hb, ha, hveq]
  exact .rri_r a

theorem clash_rr_ri (hwidth : p.field.width = 19) (hv : p.holds v = true)
    (h : (Shape.rr a b).payload = (Shape.ri a' v).payload) : Clash m n (.rr a b) (.ri a' v) := by
  simp only [Shape.payload] at h
  have hveq : v = BitVec.ofNat 32 (a + 32 * b) := by
    apply Predicate.eq_ofNat hv (by omega)
    rw [hwidth]
    omega
  have ha : a' = 0 := by omega
  rw [ha, hveq]
  exact .rr_ri a b

theorem clash_rm_rr (h : (Shape.rm a v).payload = (Shape.rr a' b').payload) :
    Clash m n (.rm a v) (.rr a' b') := by
  simp only [Shape.payload] at h
  have ha : a' = a := by omega
  have hb : b' = Fin.ofNat 32 v.toNat := by
    apply Fin.ext
    show b'.val = v.toNat % 32
    omega
  rw [ha, hb]
  exact .rm_rr a v

theorem clash_rm_rm (h : (Shape.rm a v).payload = (Shape.rm a' w).payload)
    (hdiffers : ¬ (m = n ∧ (Shape.rm a v).operands = (Shape.rm a' w).operands)) :
    Clash m n (.rm a v) (.rm a' w) := by
  simp only [Shape.payload] at h
  have ha : a' = a := by omega
  subst ha
  by_cases hvw : v = w
  · subst hvw
    exact .name _ fun hmn => hdiffers ⟨hmn, rfl⟩
  · exact .rm_rm a' v w (by omega) hvw

theorem clash_rm_ri (hwidth : p.field.width = 19) (hw : p.holds w = true)
    (h : (Shape.rm a v).payload = (Shape.ri a' w).payload)
    (hdiffers : ¬ (m = n ∧ (Shape.rm a v).operands = (Shape.ri a' w).operands)) :
    Clash m n (.rm a v) (.ri a' w) := by
  simp only [Shape.payload] at h
  have hweq : w = BitVec.ofNat 32 (a + 32 * (v.toNat % 32)) := by
    apply Predicate.eq_ofNat hw (by omega)
    rw [hwidth]
    omega
  have ha : a' = 0 := by omega
  rw [ha, hweq] at hdiffers ⊢
  apply Clash.rm_ri
  by_contra halike
  simp only [ne_eq, not_or, not_not] at halike
  obtain ⟨hmn, rfl, rfl⟩ := halike
  exact hdiffers ⟨hmn, rfl⟩

theorem clash_r_block (ht : Isel.isUInt 19 t = true)
    (h : (Shape.r a).payload = (Shape.block t).payload) : Clash m n (.r a) (.block t) := by
  have hlt := address_lt ht
  simp only [Shape.payload] at h
  have hteq : t = BitVec.ofNat 32 a := eq_ofNat_of_toNat (by omega)
  rw [hteq]
  exact .r_block a

theorem clash_r_i (hv : Isel.isUInt 19 v = true)
    (h : (Shape.r a).payload = (Shape.i v).payload) : Clash m n (.r a) (.i v) := by
  have hlt := address_lt hv
  simp only [Shape.payload] at h
  have hveq : v = BitVec.ofNat 32 a := eq_ofNat_of_toNat (by omega)
  rw [hveq]
  exact .r_i a

end

/-! ## Forms with one operation -/

/-- Different forms that the table gives to one operation. -/
def Form.meets : Form → Form → Bool
  | .rrr, .block | .rrr, .r | .rm _, .rr | .rm _, .rm _ | .r, .block => true
  | .rrr, .rri p | .rri p, .block | .rri p, .r => p.field.width = 14
  | .rr, .ri p | .rm _, .ri p => p.field.width = 19
  | .r, .i p => p = .uimm19
  | _, _ => false

def Form.Related (form form' : Form) : Prop :=
  (form = form' ∧ form.determines = true) ∨ form.meets form' = true ∨ form'.meets form = true

instance (form form' : Form) : Decidable (form.Related form') := inferInstanceAs (Decidable (_ ∨ _))

theorem forms_related : ∀ d ∈ instructions, ∀ e ∈ instructions, d.operation = e.operation →
    ((form? d.format d.kinds).getD .none).Related ((form? e.format e.kinds).getD .none) := by
  decide +kernel

/-- Shapes of forms that meet collide when they have one payload and are not printed alike. -/
theorem clash_of_meets {m n : String} {form form' : Form} {s t : Shape}
    (hmeets : form.meets form' = true) (hs : form.Has s) (ht : form'.Has t)
    (hpayload : s.payload = t.payload) (hdiffers : ¬ (m = n ∧ s.operands = t.operands)) :
    Clash m n s t := by
  cases hs with
  | rrr a b c =>
      cases ht with
      | rri a' b' hv => exact clash_rrr_rri (of_decide_eq_true hmeets) hv hpayload
      | block ht => exact clash_rrr_block ht hpayload
      | r a' => exact clash_rrr_r hpayload
      | _ => cases hmeets
  | rri a b hv =>
      cases ht with
      | block ht => exact clash_rri_block (of_decide_eq_true hmeets) hv ht hpayload
      | r a' => exact clash_rri_r (of_decide_eq_true hmeets) hv hpayload
      | _ => cases hmeets
  | rr a b =>
      cases ht with
      | ri a' hv => exact clash_rr_ri (of_decide_eq_true hmeets) hv hpayload
      | _ => cases hmeets
  | rm a hv =>
      cases ht with
      | rr a' b' => exact clash_rm_rr hpayload
      | rm a' hw => exact clash_rm_rm hpayload hdiffers
      | ri a' hw => exact clash_rm_ri (of_decide_eq_true hmeets) hw hpayload hdiffers
      | _ => cases hmeets
  | r a =>
      cases ht with
      | block ht => exact clash_r_block ht hpayload
      | @i p v hv =>
          have hp : p = .uimm19 := of_decide_eq_true hmeets
          subst hp
          exact clash_r_i hv hpayload
      | _ => cases hmeets
  | _ => cases hmeets

theorem clash_of_related {m n : String} {form form' : Form} {s t : Shape}
    (hrelated : form.Related form') (hs : form.Has s) (ht : form'.Has t)
    (hpayload : s.payload = t.payload) (hdiffers : ¬ (m = n ∧ s.operands = t.operands)) :
    Clash m n s t ∨ Clash n m t s := by
  rcases hrelated with ⟨heq, hwhole⟩ | hmeets | hmeets
  · subst heq
    have hst := Form.Has.eq_of_payload_eq hwhole hs ht hpayload
    subst hst
    exact .inl (.name s fun hmn => hdiffers ⟨hmn, rfl⟩)
  · exact .inl (clash_of_meets hmeets hs ht hpayload hdiffers)
  · right
    apply clash_of_meets hmeets ht hs hpayload.symm
    intro halike
    exact hdiffers ⟨halike.1.symm, halike.2.symm⟩

/-! ## When words distinguish -/

/-- Two instructions with one operation whose operands clash. -/
def Collide (x y : Instruction) : Prop :=
  x.inst.operation = y.inst.operation ∧
    (Clash x.mnemonic y.mnemonic x.shape y.shape ∨ Clash y.mnemonic x.mnemonic y.shape x.shape)

/-- Equal words are printed alike exactly when the instructions do not collide. -/
theorem Inst_distinguishes_iff {symbol : Word → String} (hsymbol : SymbolNames symbol)
    (x y : Instruction) :
    (x.Inst = y.Inst → x.text symbol = y.text symbol) ↔ ¬ Collide x y := by
  rw [Instruction.Inst_eq_iff, Instruction.text_eq_iff hsymbol]
  constructor
  · intro h hcollide
    obtain ⟨hop, hclash⟩ := hcollide
    cases hclash with
    | inl hxy => exact hxy.differs (h ⟨hop, hxy.payload_eq⟩)
    | inr hyx =>
        have halike := h ⟨hop, hyx.payload_eq.symm⟩
        exact hyx.differs ⟨halike.1.symm, halike.2.symm⟩
  · intro h heq
    obtain ⟨hop, hpayload⟩ := heq
    obtain ⟨form, hform, hshaped⟩ := x.exists_form
    obtain ⟨form', hform', hshaped'⟩ := y.exists_form
    have hrelated := forms_related x.inst x.mem y.inst y.mem hop
    rw [hform, hform', Option.getD_some, Option.getD_some] at hrelated
    by_contra hdiffers
    exact h ⟨hop, clash_of_related hrelated hshaped.has hshaped'.has hpayload hdiffers⟩

def blockSymbol (a : Word) : String := "pg_BB0_" ++ a.toNat.repr

theorem symbolNames_blockSymbol : SymbolNames blockSymbol where
  injective := by
    intro a b h
    have hlist := congrArg String.toList h
    simp only [blockSymbol, String.toList_append, List.append_cancel_left_eq,
      String.toList_inj] at hlist
    exact BitVec.eq_of_toNat_eq (Nat.repr_inj.mp hlist)
  isPrivate := by
    intro a
    refine ⟨"BB0_" ++ a.toNat.repr, ?_⟩
    rw [← String.append_assoc]
    rfl
  noComma := by
    intro a h
    rw [blockSymbol, String.toList_append, List.mem_append] at h
    cases h with
    | inl hname => exact absurd hname (by decide)
    | inr hdigit => exact absurd (isDigit_of_mem_repr hdigit) (by decide)

theorem mem_instructions {d : InstDef} (h : instructions.contains d = true) : d ∈ instructions :=
  List.contains_iff_mem.mp h

/-- A move and the move of a scalar into a pair. -/
theorem Inst_distinguishes_iff_moves : ∃ x y : Instruction, x.inst ≠ y.inst ∧ x.Inst = y.Inst ∧
    x.text blockSymbol = y.text blockSymbol := by
  let x : Instruction := ⟨MOVrr, mem_instructions (by decide +kernel), [.reg (.R 2), .reg (.R 3)],
    .cons rfl (.cons rfl .nil)⟩
  let y : Instruction := ⟨SCALAR_TO_VECTOR2i, mem_instructions (by decide +kernel),
    [.reg (.RD 1), .reg (.R 3)], .cons rfl (.cons rfl .nil)⟩
  have hname : ¬ x.mnemonic ≠ y.mnemonic := fun h => h rfl
  have hcollide : ¬ Collide x y := by
    intro h
    cases h.2 with
    | inl hxy =>
        cases (show Clash _ _ (.rr 2 3) (.rr 2 3) from hxy) with
        | name _ h => exact hname h
    | inr hyx =>
        cases (show Clash _ _ (.rr 2 3) (.rr 2 3) from hyx) with
        | name _ h => exact hname (Ne.symm h)
  have hwords : x.Inst = y.Inst := rfl
  exact ⟨x, y, by decide, hwords,
    (Inst_distinguishes_iff symbolNames_blockSymbol x y).mpr hcollide hwords⟩

/-- `neg r1, r2` and `not r1, r2` have one word. -/
theorem neg_not_one_word : ¬ ∀ x y : Instruction,
    x.Inst = y.Inst → x.text blockSymbol = y.text blockSymbol := by
  intro h
  have htext := h ⟨NEGrr, mem_instructions (by decide +kernel), [.reg (.R 1), .reg (.R 2)],
      .cons rfl (.cons rfl .nil)⟩
    ⟨NOTrr, mem_instructions (by decide +kernel), [.reg (.R 1), .reg (.R 2)],
      .cons rfl (.cons rfl .nil)⟩ rfl
  revert htext
  decide +kernel

end Mandarin.Encoding
