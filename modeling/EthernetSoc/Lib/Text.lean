import Mathlib.Data.List.DropRight
import Mathlib.Tactic

/-!
# Lines, words and numerals

The text functions of Python that a line-based reader of numbers uses, on lists
of characters: the lines of a file, `strip`, `split` and `int`; and decimal
numerals, which `int` reads back.

Lines come without their end. A carriage return in front of a newline makes one
empty line more than Python sees.
-/

namespace EthernetSoc.Text

/-- White space as `strip` and `split` have it. -/
def isSpace (c : Char) : Bool :=
  let n := c.toNat
  (9 ≤ n && n ≤ 13) || (28 ≤ n && n ≤ 32) || n == 133 || n == 160 || n == 5760 ||
    (8192 ≤ n && n ≤ 8202) || n == 8232 || n == 8233 || n == 8239 || n == 8287 || n == 12288

def isLineEnd (c : Char) : Bool := c == '\n' || c == '\r'

def readLines (text : List Char) : List (List Char) := text.splitOnP isLineEnd

def strip (s : List Char) : List Char := (s.dropWhile isSpace).rdropWhile isSpace

def split (s : List Char) : List (List Char) := (s.splitOnP isSpace).filter (· ≠ [])

def digitValue (c : Char) : ℕ := c.toNat - '0'.toNat

/-- The digits behind the first one, with single underscores between them. -/
def digitsLoop (n : ℕ) : List Char → Option ℕ
  | [] => some n
  | '_' :: c :: s => if c.isDigit then digitsLoop (10 * n + digitValue c) s else none
  | c :: s => if c.isDigit then digitsLoop (10 * n + digitValue c) s else none

-- Without the underscores; CPython's limit is `sys.get_int_max_str_digits()`.
abbrev maxStrDigits : ℕ := 4300

def unsigned : List Char → Option ℕ
  | [] => none
  | c :: s =>
    if c.isDigit ∧ (c :: s).countP Char.isDigit ≤ maxStrDigits then digitsLoop (digitValue c) s
    else none

/-- `int` of a string without white space; `none` is a `ValueError`. -/
def int : List Char → Option ℤ
  | '-' :: s => (unsigned s).map fun n : ℕ => -(n : ℤ)
  | '+' :: s => (unsigned s).map fun n : ℕ => (n : ℤ)
  | s => (unsigned s).map fun n : ℕ => (n : ℤ)

def numeral (z : ℤ) : List Char :=
  if z < 0 then '-' :: Nat.toDigits 10 z.natAbs else Nat.toDigits 10 z.natAbs

/-! ## Numerals -/

theorem digitsLoop_of_digits {s : List Char} (h : ∀ c ∈ s, c.isDigit = true) (n : ℕ) :
    digitsLoop n s = some (Nat.ofDigitChars 10 s n) := by
  induction s generalizing n with
  | nil => rfl
  | cons c s ih =>
    have hc := h c (by simp)
    have hne : c ≠ '_' := by
      rintro rfl
      cases hc
    have hstep : digitsLoop n (c :: s) = digitsLoop (10 * n + digitValue c) s := by
      rw [digitsLoop, if_pos hc]
      intro d t hd
      exact absurd hd hne
    rw [hstep, ih (fun d hd => h d (by simp [hd]))]
    rfl

theorem unsigned_of_digits {s : List Char} (hne : s ≠ []) (h : ∀ c ∈ s, c.isDigit = true) :
    unsigned s = if s.length ≤ maxStrDigits then some (Nat.ofDigitChars 10 s 0) else none := by
  cases s with
  | nil => exact absurd rfl hne
  | cons c s =>
    have hc := h c List.mem_cons_self
    rw [unsigned, List.countP_eq_length.mpr h,
      digitsLoop_of_digits (fun d hd => h d (by simp [hd]))]
    simp [hc, Nat.ofDigitChars, digitValue]

/-- The numeral is within the limit of `int`. -/
def Short (z : ℤ) : Prop := (Nat.toDigits 10 z.natAbs).length ≤ maxStrDigits

instance : DecidablePred Short := fun z =>
  inferInstanceAs (Decidable ((Nat.toDigits 10 z.natAbs).length ≤ maxStrDigits))

theorem short_of_lt {z : ℤ} {e : ℕ} (h : z.natAbs < 10^e) (he : 0 < e) (hle : e ≤ maxStrDigits) :
    Short z :=
  ((Nat.length_toDigits_le_iff (by norm_num) he).mpr h).trans hle

theorem unsigned_toDigits (z : ℤ) :
    unsigned (Nat.toDigits 10 z.natAbs) = if Short z then some z.natAbs else none := by
  rw [unsigned_of_digits Nat.toDigits_ne_nil
    (fun c hc => Nat.isDigit_of_mem_toDigits (by norm_num) (by norm_num) hc),
    Nat.ofDigitChars_toDigits (by norm_num) (by norm_num)]
  rfl

theorem int_of_digit {c : Char} (h : c.isDigit = true) (s : List Char) :
    int (c :: s) = (unsigned (c :: s)).map fun n : ℕ => (n : ℤ) := by
  have hminus : c ≠ '-' := by
    rintro rfl
    cases h
  have hplus : c ≠ '+' := by
    rintro rfl
    cases h
  rw [int]
  · intro t ht
    exact hminus (List.cons.inj ht).1
  · intro t ht
    exact hplus (List.cons.inj ht).1

theorem int_numeral (z : ℤ) : int (numeral z) = if Short z then some z else none := by
  have hneg : z < 0 → -(z.natAbs : ℤ) = z := fun hz => by omega
  have hpos : ¬ z < 0 → (z.natAbs : ℤ) = z := fun hz => by omega
  unfold numeral
  split_ifs with hz hshort hshort
  · rw [int, unsigned_toDigits, if_pos hshort, Option.map_some, hneg hz]
  · rw [int, unsigned_toDigits, if_neg hshort, Option.map_none]
  all_goals
    obtain ⟨c, s, hcs⟩ := List.exists_cons_of_ne_nil (Nat.toDigits_ne_nil (n := z.natAbs) (b := 10))
    have hc : c.isDigit = true :=
      Nat.isDigit_of_mem_toDigits (n := z.natAbs) (b := 10) (by norm_num) (by norm_num)
        (by simp [hcs])
    rw [hcs, int_of_digit hc, ← hcs, unsigned_toDigits]
  · rw [if_pos hshort, Option.map_some, hpos hz]
  · rw [if_neg hshort, Option.map_none]

def isNumeralChar (c : Char) : Bool := c == '-' || c.isDigit

theorem numeral_chars {z : ℤ} : ∀ c ∈ numeral z, isNumeralChar c = true := by
  have hdigits : ∀ c ∈ Nat.toDigits 10 z.natAbs, isNumeralChar c = true := by
    intro c hc
    simp [isNumeralChar, Nat.isDigit_of_mem_toDigits (by norm_num) (by norm_num) hc]
  unfold numeral
  split_ifs
  · intro c hc
    rcases List.mem_cons.mp hc with rfl | hc
    · rfl
    · exact hdigits c hc
  · exact hdigits

theorem numeral_ne_nil (z : ℤ) : numeral z ≠ [] := by
  unfold numeral
  split_ifs
  · simp
  · exact Nat.toDigits_ne_nil

theorem isNumeralChar_spec {c : Char} (h : isNumeralChar c = true) :
    isSpace c = false ∧ isLineEnd c = false ∧ c ≠ 'c' ∧ c ≠ 'p' := by
  rcases (Bool.or_eq_true _ _).mp h with hc | hc
  · obtain rfl : c = '-' := by simpa using hc
    decide
  · have hrange : 48 ≤ c.toNat ∧ c.toNat ≤ 57 := by
      simpa [Char.isDigit, UInt32.le_iff_toNat_le] using hc
    have hne : ∀ d : Char, 57 < d.toNat ∨ d.toNat < 48 → c ≠ d := by
      rintro d hd rfl
      omega
    have hn : c ≠ '\n' := hne _ (by decide)
    have hr : c ≠ '\r' := hne _ (by decide)
    refine ⟨?_, by simp [isLineEnd, hn, hr], hne _ (by decide), hne _ (by decide)⟩
    rw [← Bool.not_eq_true]
    simp [isSpace]
    omega

/-! ## Words and lines -/

def InLine (s : List Char) : Prop := ∀ c ∈ s, isLineEnd c = false

theorem InLine.append {s t : List Char} (hs : InLine s) (ht : InLine t) : InLine (s ++ t) :=
  fun c hc => (List.mem_append.mp hc).elim (hs c) (ht c)

theorem InLine.cons {c : Char} {s : List Char} (hc : isLineEnd c = false) (hs : InLine s) :
    InLine (c :: s) :=
  List.forall_mem_cons.mpr ⟨hc, hs⟩

theorem inLine_numeral (z : ℤ) : InLine (numeral z) :=
  fun c hc => (isNumeralChar_spec (numeral_chars c hc)).2.1

theorem split_append_cons (s t : List Char) {c : Char} (hc : isSpace c = true) :
    split (s ++ c :: t) = split s ++ split t := by
  rw [split, List.splitOnP_append_cons s t hc, List.filter_append]
  rfl

theorem split_word {w : List Char} (hne : w ≠ []) (h : ∀ c ∈ w, isSpace c = false) :
    split w = [w] := by
  rw [split, List.splitOnP_eq_singleton h, List.filter_cons_of_pos (by simpa using hne),
    List.filter_nil]

theorem split_nil : split [] = [] := by
  simp [split]

theorem split_append_spaces (s : List Char) {ws : List Char} (h : ∀ c ∈ ws, isSpace c = true) :
    split (s ++ ws) = split s := by
  induction ws generalizing s with
  | nil => rw [List.append_nil]
  | cons c ws ih =>
    have hws := ih [] (fun d hd => h d (by simp [hd]))
    rw [List.nil_append, split_nil] at hws
    rw [split_append_cons s ws (h c (by simp)), hws, List.append_nil]

theorem split_spaces_append {ws : List Char} (h : ∀ c ∈ ws, isSpace c = true) (s : List Char) :
    split (ws ++ s) = split s := by
  induction ws with
  | nil => rfl
  | cons c ws ih =>
    have hcons := split_append_cons [] (ws ++ s) (h c (by simp))
    rw [split_nil, List.nil_append, List.nil_append] at hcons
    rw [List.cons_append, hcons, ih (fun d hd => h d (by simp [hd]))]

theorem split_strip (s : List Char) : split (strip s) = split s := by
  set t := s.dropWhile isSpace with ht
  have hleft : split s = split t := by
    rw [← List.takeWhile_append_dropWhile (p := isSpace) (l := s)]
    exact split_spaces_append (fun c hc => List.mem_takeWhile_imp hc) t
  have hright : split t = split (t.rdropWhile isSpace) := by
    have happ : t.rdropWhile isSpace ++ t.rtakeWhile isSpace = t :=
      List.rdropWhile_append_rtakeWhile
    conv_lhs => rw [← happ]
    exact split_append_spaces _ fun c hc => List.mem_rtakeWhile_imp hc
  rw [hleft, hright, strip, ht]

theorem strip_spaces {s : List Char} (h : ∀ c ∈ s, isSpace c = true) : strip s = [] := by
  rw [strip, List.dropWhile_eq_nil_iff.mpr h, List.rdropWhile_nil]

theorem rdropWhile_append_cons (s t : List Char) {c : Char} (hc : isSpace c = false) :
    (s ++ c :: t).rdropWhile isSpace = s ++ c :: t.rdropWhile isSpace := by
  induction t using List.reverseRecOn with
  | nil =>
    rw [List.rdropWhile_concat_neg _ _ _ (by simp [hc]), List.rdropWhile_nil]
  | append_singleton t x ih =>
    have hassoc : s ++ c :: (t ++ [x]) = (s ++ c :: t) ++ [x] := by simp
    rw [hassoc]
    by_cases hx : isSpace x = true
    · rw [List.rdropWhile_concat_pos _ _ _ hx, List.rdropWhile_concat_pos _ _ _ hx, ih]
    · rw [List.rdropWhile_concat_neg _ _ _ hx, List.rdropWhile_concat_neg _ _ _ hx, hassoc]

theorem strip_cons {ws : List Char} (hws : ∀ c ∈ ws, isSpace c = true) {c : Char}
    (hc : isSpace c = false) (s : List Char) :
    strip (ws ++ c :: s) = (c :: s).rdropWhile isSpace := by
  rw [strip, List.dropWhile_append_of_pos hws, List.dropWhile_cons_of_neg (by simp [hc])]

theorem readLines_cons {line : List Char} (h : InLine line) {e : Char} (he : isLineEnd e = true)
    (text : List Char) : readLines (line ++ e :: text) = line :: readLines text :=
  List.splitOnP_append_cons_of_forall_mem h e he text

theorem readLines_last {line : List Char} (h : InLine line) : readLines line = [line] :=
  List.splitOnP_eq_singleton h

theorem split_numeral (z : ℤ) : split (numeral z) = [numeral z] :=
  split_word (numeral_ne_nil z) fun c hc => (isNumeralChar_spec (numeral_chars c hc)).1

theorem mapM_int_numeral (zs : List ℤ) :
    (zs.map numeral).mapM int = if ∀ z ∈ zs, Short z then some zs else none := by
  induction zs with
  | nil => rfl
  | cons z zs ih =>
    rw [List.map_cons, List.mapM_cons, int_numeral, ih]
    by_cases hz : Short z
    · by_cases hzs : ∀ y ∈ zs, Short y
      · rw [if_pos hz, if_pos hzs, if_pos (List.forall_mem_cons.mpr ⟨hz, hzs⟩)]
        rfl
      · rw [if_pos hz, if_neg hzs, if_neg (fun h => hzs (List.forall_mem_cons.mp h).2)]
        rfl
    · rw [if_neg hz, if_neg (fun h => hz (List.forall_mem_cons.mp h).1)]
      rfl

end EthernetSoc.Text
