import Mathlib

/-! # Lines of words

A line is a first word and, behind a blank, further words with commas between them.
If the first word has no blank and no other word has a comma, the line determines
its words.
-/

namespace Mandarin.Line

def further (ws : List String) : String := ws.foldr (fun w rest => ", " ++ w ++ rest) ""

def rest : List String → String
  | [] => ""
  | w :: ws => " " ++ w ++ further ws

def line (first : String) (ws : List String) : String := first ++ rest ws

@[simp] theorem further_nil : further [] = "" := rfl

@[simp] theorem further_cons (w : String) (ws : List String) :
    further (w :: ws) = ", " ++ w ++ further ws := rfl

/-- A list starts with `c` or is empty. -/
def StartsWith (c : Char) (s : List Char) : Prop := ∀ d, s.head? = some d → d = c

theorem startsWith_further (ws : List String) : StartsWith ',' (further ws).toList := by
  cases ws with
  | nil => simp [StartsWith]
  | cons w ws => simp [StartsWith]

theorem startsWith_rest (ws : List String) : StartsWith ' ' (rest ws).toList := by
  cases ws with
  | nil => simp [StartsWith, rest]
  | cons w ws => simp [StartsWith, rest]

/-- A word without `c` ends where `c` comes. -/
theorem append_inj_of_notMem {c : Char} {a b s t : List Char} (ha : c ∉ a) (hb : c ∉ b)
    (hs : StartsWith c s) (ht : StartsWith c t) (h : a ++ s = b ++ t) : a = b ∧ s = t := by
  induction a generalizing b with
  | nil =>
      cases b with
      | nil => exact ⟨rfl, h⟩
      | cons d b =>
          have hd : d = c := hs d (by rw [show s = d :: (b ++ t) from h]; rfl)
          exact absurd (hd ▸ List.mem_cons_self) hb
  | cons d a ih =>
      cases b with
      | nil =>
          have hd : d = c := ht d (by rw [show t = d :: (a ++ s) from h.symm]; rfl)
          exact absurd (hd ▸ List.mem_cons_self) ha
      | cons e b =>
          rw [List.cons_append, List.cons_append, List.cons.injEq] at h
          have hrest := ih (fun hm => ha (List.mem_cons_of_mem d hm))
            (fun hm => hb (List.mem_cons_of_mem e hm)) h.2
          exact ⟨by rw [h.1, hrest.1], hrest.2⟩

theorem word_inj {v w : String} {vs ws : List String} (hv : ',' ∉ v.toList) (hw : ',' ∉ w.toList)
    (h : v.toList ++ (further vs).toList = w.toList ++ (further ws).toList) :
    v = w ∧ further vs = further ws := by
  obtain ⟨hfirst, hbehind⟩ :=
    append_inj_of_notMem hv hw (startsWith_further vs) (startsWith_further ws) h
  exact ⟨String.toList_inj.mp hfirst, String.toList_inj.mp hbehind⟩

theorem further_inj {vs ws : List String} (hvs : ∀ v ∈ vs, ',' ∉ v.toList)
    (hws : ∀ w ∈ ws, ',' ∉ w.toList) (h : further vs = further ws) : vs = ws := by
  induction vs generalizing ws with
  | nil =>
      cases ws with
      | nil => rfl
      | cons w ws =>
          have hlist := congrArg String.toList h
          simp at hlist
  | cons v vs ih =>
      have hlist := congrArg String.toList h
      cases ws with
      | nil => simp at hlist
      | cons w ws =>
          simp only [further_cons, String.toList_append, List.append_assoc,
            List.append_cancel_left_eq] at hlist
          obtain ⟨hword, hfurther⟩ := word_inj (hvs v (by simp)) (hws w (by simp)) hlist
          rw [hword, ih (fun u hu => hvs u (by simp [hu])) (fun u hu => hws u (by simp [hu]))
            hfurther]

theorem rest_inj {vs ws : List String} (hvs : ∀ v ∈ vs, ',' ∉ v.toList)
    (hws : ∀ w ∈ ws, ',' ∉ w.toList) (h : rest vs = rest ws) : vs = ws := by
  have hlist := congrArg String.toList h
  cases vs with
  | nil =>
      cases ws with
      | nil => rfl
      | cons w ws => simp [rest] at hlist
  | cons v vs =>
      cases ws with
      | nil => simp [rest] at hlist
      | cons w ws =>
          simp only [rest, String.toList_append, List.append_assoc,
            List.append_cancel_left_eq] at hlist
          obtain ⟨hword, hfurther⟩ := word_inj (hvs v (by simp)) (hws w (by simp)) hlist
          rw [hword, further_inj (fun u hu => hvs u (by simp [hu])) (fun u hu => hws u (by simp [hu]))
            hfurther]

/-- A line determines its words. -/
theorem line_inj {f g : String} {vs ws : List String} (hf : ' ' ∉ f.toList) (hg : ' ' ∉ g.toList)
    (hvs : ∀ v ∈ vs, ',' ∉ v.toList) (hws : ∀ w ∈ ws, ',' ∉ w.toList)
    (h : line f vs = line g ws) : f = g ∧ vs = ws := by
  have hlist := congrArg String.toList h
  simp only [line, String.toList_append] at hlist
  obtain ⟨hfirst, hrest⟩ := append_inj_of_notMem hf hg (startsWith_rest vs) (startsWith_rest ws)
    hlist
  exact ⟨String.toList_inj.mp hfirst, rest_inj hvs hws (String.toList_inj.mp hrest)⟩

end Mandarin.Line
