import EthernetSoc.Lib.Text
import EthernetSoc.SatHost

/-!
# Reading a formula from a file

`_parse_dimacs` works line by line, while in the DIMACS format a line break
between two integers is a space like any other. A `Document` is a file in the
format: it says which integers stand in it and what stands between them.
`parseDimacs` is followed on the characters of a document to the rows of
integers its lines hold, and from there to the layouts it reads correctly.

The empty line that a carriage return in front of a newline leaves is skipped
like all blank lines.
-/

namespace EthernetSoc.Dimacs
open SatHost Text

/-! ## The parser -/

def dropClosingZero (lits : List ℤ) : List ℤ :=
  if lits.getLast? = some 0 then lits.dropLast else lits

def parseLine (state : ℤ × Clauses) (line : List Char) : Option (ℤ × Clauses) :=
  let line := strip line
  if line = [] || ['c'].isPrefixOf line then some state
  else if ['p', ' ', 'c', 'n', 'f'].isPrefixOf line then do
    let part ← (split line)[2]?
    let nVars ← int part
    some (nVars, state.2)
  else do
    let lits ← (split line).mapM int
    let lits := dropClosingZero lits
    some (state.1, if lits = [] then state.2 else state.2 ++ [lits])

def parseDimacs (text : List Char) : Option (ℤ × Clauses) :=
  (readLines text).foldlM parseLine (0, [])

/-! ## Files in the format -/

abbrev Blank := {c : Char // isSpace c = true ∧ isLineEnd c = false}

abbrev LineEnd := {c : Char // isLineEnd c = true}

def chars {P : Char → Prop} (s : List (Subtype P)) : List Char := s.map Subtype.val

inductive Filler
  | blank (ws : List Blank)
  | comment (indent : List Blank) (text : List {c : Char // isLineEnd c = false})

def Filler.line : Filler → List Char
  | .blank ws => chars ws
  | .comment indent text => chars indent ++ 'c' :: chars text

/-- What stands between two tokens: white space in a line, or a line break with
any number of fillers. -/
inductive Gap
  | spaces (first : Blank) (ws : List Blank)
  | lines (before : List Blank) (lineEnd : LineEnd) (fillers : List (Filler × LineEnd))
      (after : List Blank)

def Gap.breaks : Gap → Bool
  | .spaces _ _ => false
  | .lines _ _ _ _ => true

def fillerLines (fillers : List (Filler × LineEnd)) : List Char :=
  fillers.flatMap fun f => f.1.line ++ [f.2.1]

def Gap.text : Gap → List Char
  | .spaces first ws => first.1 :: chars ws
  | .lines before lineEnd fillers after =>
    chars before ++ lineEnd.1 :: (fillerLines fillers ++ chars after)

abbrev Body := List (Gap × ℤ)

def Body.text (body : Body) : List Char := body.flatMap fun t => t.1.text ++ numeral t.2

/-- The line `p cnf V C`, the integers behind it each with the gap before it,
and what follows the last one. -/
structure Document where
  leading : List (Filler × LineEnd)
  indent : List Blank
  nVars : ℕ
  nClauses : ℕ
  space₁ : Blank × List Blank
  space₂ : Blank × List Blank
  body : Body
  body_starts : ∀ t ∈ body.head?, t.1.breaks = true
  trailing : Option Gap

def Document.header (d : Document) : List Char :=
  chars d.indent ++ (['p', ' ', 'c', 'n', 'f'] ++ chars (d.space₁.1 :: d.space₁.2) ++
    numeral d.nVars ++ chars (d.space₂.1 :: d.space₂.2) ++ numeral d.nClauses)

def Document.text (d : Document) : List Char :=
  fillerLines d.leading ++ (d.header ++ d.body.text ++ (d.trailing.map Gap.text).getD [])

def Document.Holds (d : Document) (clauses : Clauses) : Prop :=
  d.body.map Prod.snd = clauses.flatMap (· ++ [0])

/-- All integers the parser reads are within the limit of `int`; the number of
clauses is not read. -/
def Document.AllShort (d : Document) : Prop :=
  Short d.nVars ∧ ∀ z ∈ d.body.map Prod.snd, Short z

instance (d : Document) : Decidable d.AllShort := by unfold Document.AllShort; infer_instance

/-- A line break stands in front of an integer of a clause just when it is the
first one of its clause. The flag says whether a clause begins here. -/
def Aligned : Bool → Body → Prop
  | _, [] => True
  | opens, (g, z) :: body => (z ≠ 0 → g.breaks = opens) ∧ Aligned (decide (z = 0)) body

/-! ## One line -/

theorem isSpace_of_blank {ws : List Blank} : ∀ c ∈ chars ws, isSpace c = true := by
  intro c hc
  obtain ⟨b, -, rfl⟩ := List.mem_map.mp hc
  exact b.2.1

theorem inLine_chars {P : Char → Prop} (h : ∀ c, P c → isLineEnd c = false)
    (s : List (Subtype P)) : InLine (chars s) := by
  intro c hc
  obtain ⟨b, -, rfl⟩ := List.mem_map.mp hc
  exact h b.1 b.2

theorem inLine_blanks (ws : List Blank) : InLine (chars ws) := inLine_chars (fun _ h => h.2) ws

theorem Filler.inLine (f : Filler) : InLine f.line := by
  cases f with
  | blank ws => exact inLine_blanks ws
  | comment indent text =>
    exact (inLine_blanks indent).append (.cons (by decide) (inLine_chars (fun _ h => h) text))

theorem parseLine_filler (state : ℤ × Clauses) (f : Filler) :
    parseLine state f.line = some state := by
  cases f with
  | blank ws =>
    have hstrip : strip (chars ws) = [] := strip_spaces isSpace_of_blank
    simp [parseLine, Filler.line, hstrip]
  | comment indent text =>
    have hstrip : strip (chars indent ++ 'c' :: chars text) =
        'c' :: (chars text).rdropWhile isSpace := by
      rw [strip_cons isSpace_of_blank (by decide)]
      exact rdropWhile_append_cons [] _ (by decide)
    simp [parseLine, Filler.line, hstrip]

theorem foldlM_fillers (state : ℤ × Clauses) (fillers : List (Filler × LineEnd))
    (text : List Char) :
    (readLines (fillerLines fillers ++ text)).foldlM parseLine state =
      (readLines text).foldlM parseLine state := by
  induction fillers with
  | nil => rfl
  | cons f fillers ih =>
    have htext : fillerLines (f :: fillers) ++ text =
        f.1.line ++ f.2.1 :: (fillerLines fillers ++ text) := by
      simp [fillerLines]
    rw [htext, readLines_cons f.1.inLine f.2.2, List.foldlM_cons, parseLine_filler]
    exact ih

structure NumberLine (line : List Char) (zs : List ℤ) : Prop where
  words : split line = zs.map numeral
  inLine : InLine line
  starts : ∃ (ws : List Blank) (c : Char) (s : List Char),
    line = chars ws ++ c :: s ∧ isNumeralChar c = true

theorem numberLine_one (ws : List Blank) (z : ℤ) : NumberLine (chars ws ++ numeral z) [z] := by
  refine ⟨?_, (inLine_blanks ws).append (inLine_numeral z), ?_⟩
  · rw [split_spaces_append isSpace_of_blank, split_numeral]
    rfl
  · obtain ⟨c, s, hcs⟩ := List.exists_cons_of_ne_nil (numeral_ne_nil z)
    exact ⟨ws, c, s, by rw [hcs], numeral_chars (z := z) c (by simp [hcs])⟩

theorem NumberLine.blanks {line : List Char} {zs : List ℤ} (h : NumberLine line zs)
    (ws : List Blank) : NumberLine (line ++ chars ws) zs := by
  obtain ⟨ws', c, s, hline, hc⟩ := h.starts
  refine ⟨?_, h.inLine.append (inLine_blanks ws), ws', c, s ++ chars ws, by simp [hline], hc⟩
  rw [split_append_spaces line isSpace_of_blank, h.words]

theorem NumberLine.snoc {line : List Char} {zs : List ℤ} (h : NumberLine line zs) (b : Blank)
    (ws : List Blank) (z : ℤ) :
    NumberLine (line ++ b.1 :: (chars ws ++ numeral z)) (zs ++ [z]) := by
  obtain ⟨ws', c, s, hline, hc⟩ := h.starts
  have hrest : InLine (b.1 :: (chars ws ++ numeral z)) :=
    .cons b.2.2 ((inLine_blanks ws).append (inLine_numeral z))
  refine ⟨?_, h.inLine.append hrest, ws', c, s ++ b.1 :: (chars ws ++ numeral z),
    by simp [hline], hc⟩
  rw [split_append_cons line _ b.2.1, h.words, split_spaces_append isSpace_of_blank,
    split_numeral, List.map_append]
  rfl

def row (zs : List ℤ) : Clauses :=
  if dropClosingZero zs = [] then [] else [dropClosingZero zs]

theorem parseLine_number (state : ℤ × Clauses) {line : List Char} {zs : List ℤ}
    (h : NumberLine line zs) :
    parseLine state line =
      if ∀ z ∈ zs, Short z then some (state.1, state.2 ++ row zs) else none := by
  obtain ⟨ws, c, s, hline, hc⟩ := h.starts
  obtain ⟨hspace, -, hne, hne'⟩ := isNumeralChar_spec hc
  have hstrip : strip line = c :: s.rdropWhile isSpace := by
    rw [hline, strip_cons isSpace_of_blank hspace]
    exact rdropWhile_append_cons [] s hspace
  have hwords : split (strip line) = zs.map numeral := (split_strip line).trans h.words
  rw [hstrip] at hwords
  have hrow : (if dropClosingZero zs = [] then state.2 else state.2 ++ [dropClosingZero zs]) =
      state.2 ++ row zs := by
    unfold row
    split_ifs <;> simp
  simp only [parseLine, hstrip, hwords, mapM_int_numeral]
  by_cases hshort : ∀ z ∈ zs, Short z
  · rw [if_pos hshort, if_pos hshort]
    simp [hne.symm, hne'.symm, hrow]
  · rw [if_neg hshort, if_neg hshort]
    simp [hne.symm, hne'.symm]

theorem Document.inLine_header (d : Document) : InLine d.header := by
  have hmark : InLine ['p', ' ', 'c', 'n', 'f'] := by simp [InLine, isLineEnd]
  exact (inLine_blanks d.indent).append ((((hmark.append (inLine_blanks _)).append
    (inLine_numeral _)).append (inLine_blanks _)).append (inLine_numeral _))

theorem Document.parseLine_header (d : Document) (state : ℤ × Clauses) (ws : List Blank) :
    parseLine state (d.header ++ chars ws) =
      if Short d.nVars then some ((d.nVars : ℤ), state.2) else none := by
  set s := chars d.space₁.2 ++ (numeral d.nVars ++ d.space₂.1.1 ::
    (chars d.space₂.2 ++ (numeral d.nClauses ++ chars ws))) with hs
  have hline : d.header ++ chars ws =
      chars d.indent ++ 'p' :: ([' ', 'c', 'n'] ++ 'f' :: d.space₁.1.1 :: s) := by
    simp [Document.header, chars, hs]
  have hstrip : strip (d.header ++ chars ws) =
      'p' :: ' ' :: 'c' :: 'n' :: 'f' :: (d.space₁.1.1 :: s).rdropWhile isSpace := by
    rw [hline, strip_cons isSpace_of_blank (by decide)]
    exact rdropWhile_append_cons ['p', ' ', 'c', 'n'] _ (by decide)
  have hwords : split (strip (d.header ++ chars ws)) =
      [['p'], ['c', 'n', 'f'], numeral d.nVars, numeral d.nClauses] := by
    rw [split_strip, hline, split_spaces_append isSpace_of_blank,
      show 'p' :: ([' ', 'c', 'n'] ++ 'f' :: d.space₁.1.1 :: s) =
        ['p'] ++ ' ' :: (['c', 'n', 'f'] ++ d.space₁.1.1 :: s) from rfl,
      split_append_cons _ _ (by decide), split_append_cons _ _ d.space₁.1.2.1, hs,
      split_spaces_append isSpace_of_blank, split_append_cons _ _ d.space₂.1.2.1,
      split_spaces_append isSpace_of_blank, split_append_spaces _ isSpace_of_blank,
      split_numeral, split_numeral, split_word (by simp) (by simp [isSpace]),
      split_word (by simp) (by simp [isSpace])]
    rfl
  rw [hstrip] at hwords
  simp only [parseLine, hstrip, hwords]
  by_cases hshort : Short d.nVars <;> simp [int_numeral, hshort]

/-! ## The rows of a document -/

/-- The clauses read from a line that holds `cur` so far and from what follows. -/
def rows (cur : List ℤ) : Body → Clauses
  | [] => row cur
  | (g, z) :: body => if g.breaks then row cur ++ rows [z] body else rows (cur ++ [z]) body

theorem Body.text_spaces (first : Blank) (ws : List Blank) (z : ℤ) (body : Body) :
    Body.text ((.spaces first ws, z) :: body) =
      first.1 :: (chars ws ++ numeral z) ++ Body.text body := by
  simp [Body.text, Gap.text]

theorem Body.text_lines (before : List Blank) (e : LineEnd) (fillers : List (Filler × LineEnd))
    (after : List Blank) (z : ℤ) (body : Body) :
    Body.text ((.lines before e fillers after, z) :: body) =
      chars before ++ e.1 :: (fillerLines fillers ++ (chars after ++ numeral z ++
        Body.text body)) := by
  simp [Body.text, Gap.text]

theorem foldlM_lines (state : ℤ × Clauses) {line : List Char} {parsed : Option (ℤ × Clauses)}
    (hin : InLine line) {before : List Blank}
    (hline : parseLine state (line ++ chars before) = parsed) (e : LineEnd)
    (fillers : List (Filler × LineEnd)) (text : List Char) :
    (readLines (line ++ (chars before ++ e.1 :: (fillerLines fillers ++ text)))).foldlM parseLine
      state = parsed.bind fun state' => (readLines text).foldlM parseLine state' := by
  rw [← List.append_assoc, readLines_cons (hin.append (inLine_blanks before)) e.2,
    List.foldlM_cons, hline]
  exact congrArg parsed.bind (funext fun state' => foldlM_fillers state' fillers text)

theorem foldlM_trailing (state : ℤ × Clauses) {line : List Char} {parsed : Option (ℤ × Clauses)}
    (hin : InLine line)
    (hline : ∀ ws : List Blank, parseLine state (line ++ chars ws) = parsed)
    (trailing : Option Gap) :
    (readLines (line ++ (trailing.map Gap.text).getD [])).foldlM parseLine state = parsed := by
  have hblanks : ∀ ws : List Blank, (readLines (line ++ chars ws)).foldlM parseLine state =
      parsed := by
    intro ws
    rw [readLines_last (hin.append (inLine_blanks ws)), List.foldlM_cons, hline ws]
    exact Option.bind_fun_some parsed
  cases trailing with
  | none => exact hblanks []
  | some g =>
    cases g with
    | spaces first ws => exact hblanks (first :: ws)
    | lines before e fillers after =>
      refine (foldlM_lines state hin (hline before) e fillers (chars after)).trans ?_
      have hrest : (fun state' => (readLines (chars after)).foldlM parseLine state') = some := by
        funext state'
        rw [readLines_last (inLine_blanks after), List.foldlM_cons]
        exact congrArg (· >>= _) (parseLine_filler state' (.blank after))
      rw [hrest]
      exact Option.bind_fun_some parsed

theorem foldlM_body (state : ℤ × Clauses) {line : List Char} {cur : List ℤ}
    (h : NumberLine line cur) (body : Body) (trailing : Option Gap) :
    (readLines (line ++ (body.text ++ (trailing.map Gap.text).getD []))).foldlM parseLine state =
      if ∀ z ∈ cur ++ body.map Prod.snd, Short z then some (state.1, state.2 ++ rows cur body)
      else none := by
  induction body generalizing state line cur with
  | nil =>
    rw [List.map_nil, List.append_nil]
    exact foldlM_trailing state h.inLine (fun ws => parseLine_number state (h.blanks ws)) trailing
  | cons t body ih =>
    obtain ⟨g, z⟩ := t
    cases g with
    | spaces first ws =>
      rw [Body.text_spaces, List.append_assoc, ← List.append_assoc, ih state (h.snoc first ws z),
        List.append_assoc]
      rfl
    | lines before e fillers after =>
      rw [Body.text_lines]
      simp only [List.append_assoc, List.cons_append]
      rw [foldlM_lines state h.inLine (parseLine_number state (h.blanks before))]
      by_cases hcur : ∀ y ∈ cur, Short y
      · rw [if_pos hcur, Option.bind_some, ← List.append_assoc, ih _ (numberLine_one after z)]
        refine if_congr (List.forall_mem_append.trans (and_iff_right hcur)).symm ?_ rfl
        simp [rows, Gap.breaks]
      · rw [if_neg hcur, Option.bind_none, if_neg fun h => hcur (List.forall_mem_append.mp h).1]

theorem parseDimacs_eq (d : Document) :
    parseDimacs d.text =
      if d.AllShort then some ((d.nVars : ℤ), rows [] d.body) else none := by
  rw [parseDimacs, Document.text, foldlM_fillers, List.append_assoc]
  cases hbody : d.body with
  | nil =>
    have hshort : d.AllShort ↔ Short d.nVars := by simp [Document.AllShort, hbody]
    simp only [hshort]
    exact foldlM_trailing (0, []) d.inLine_header (d.parseLine_header (0, [])) d.trailing
  | cons t body =>
    obtain ⟨g, z⟩ := t
    cases g with
    | spaces first ws =>
      have hstarts := d.body_starts (.spaces first ws, z) (by simp [hbody])
      cases hstarts
    | lines before e fillers after =>
      rw [Body.text_lines]
      simp only [List.append_assoc, List.cons_append]
      rw [foldlM_lines (0, []) d.inLine_header (d.parseLine_header (0, []) before)]
      have hshort : d.AllShort ↔ Short d.nVars ∧ ∀ y ∈ [z] ++ body.map Prod.snd, Short y := by
        rw [Document.AllShort, hbody]
        rfl
      by_cases hvars : Short d.nVars
      · rw [if_pos hvars, Option.bind_some, ← List.append_assoc,
          foldlM_body _ (numberLine_one after z)]
        exact if_congr (hshort.trans (and_iff_right hvars)).symm rfl rfl
      · rw [if_neg hvars, Option.bind_none, if_neg fun h => hvars (hshort.mp h).1]

/-! ## The layouts that are read correctly -/

theorem row_open {zs : List ℤ} (hne : zs ≠ []) (h0 : ∀ z ∈ zs, z ≠ 0) : row zs = [zs] := by
  have hlast : zs.getLast? ≠ some 0 := by
    intro h
    exact h0 0 (List.mem_of_getLast? h) rfl
  simp [row, dropClosingZero, hlast, hne]

theorem row_closed (zs : List ℤ) : row (zs ++ [0]) = if zs = [] then [] else [zs] := by
  simp [row, dropClosingZero]

theorem nil_notMem_rows (cur : List ℤ) (body : Body) : [] ∉ rows cur body := by
  have hrow : ∀ zs, [] ∉ row zs := by
    intro zs h
    unfold row at h
    split_ifs at h with hne
    · cases h
    · exact hne (List.mem_singleton.mp h).symm
  induction body generalizing cur with
  | nil => exact hrow cur
  | cons t body ih =>
    rw [rows]
    split_ifs
    · intro h
      exact (List.mem_append.mp h).elim (hrow cur) (ih [t.2])
    · exact ih _

theorem zero_mem_row {zs : List ℤ} (h0 : 0 ∈ zs) (z : ℤ) : ∃ c ∈ row (zs ++ [z]), (0 : ℤ) ∈ c := by
  have hne : zs ≠ [] := List.ne_nil_of_mem h0
  by_cases hz : z = 0
  · rw [hz, row_closed, if_neg hne]
    exact ⟨zs, by simp, h0⟩
  · simp [row, dropClosingZero, hz, h0]

/-- A 0 with an integer behind it in its line ends up in a clause. -/
theorem zero_mem_rows {zs : List ℤ} (h0 : 0 ∈ zs) (z : ℤ) (body : Body) :
    ∃ c ∈ rows (zs ++ [z]) body, (0 : ℤ) ∈ c := by
  induction body generalizing zs z with
  | nil => exact zero_mem_row h0 z
  | cons t body ih =>
    rw [rows]
    split_ifs
    · obtain ⟨c, hc, hmem⟩ := zero_mem_row h0 z
      exact ⟨c, List.mem_append_left _ hc, hmem⟩
    · exact ih (List.mem_append_left _ h0) t.2

def NonZero (clauses : Clauses) : Prop := ∀ c ∈ clauses, ∀ z ∈ c, z ≠ 0

theorem rows_ne_of_shared_line {g : Gap} (hg : g.breaks = false) (z : ℤ) (body : Body)
    {zs : List ℤ} {clauses : Clauses} (hzs : ∀ y ∈ zs, y ≠ 0) (hnz : NonZero clauses) :
    rows (zs ++ [0]) ((g, z) :: body) ≠ row (zs ++ [0]) ++ clauses := by
  intro h
  rw [rows, hg, if_neg Bool.false_ne_true] at h
  have hzero : (0 : ℤ) ∈ zs ++ [0] := by simp
  obtain ⟨c, hc, h0⟩ := zero_mem_rows hzero z body
  rw [h, row_closed] at hc
  rcases List.mem_append.mp hc with hc | hc
  · split_ifs at hc
    · cases hc
    · rw [List.mem_singleton.mp hc] at h0
      exact hzs 0 h0 rfl
  · exact hnz c hc 0 h0 rfl

/-- At the end of a clause, whose 0 is the last integer of the line so far. -/
def ReadsFromClosed (body : Body) : Prop :=
  ∀ (zs : List ℤ) (clauses : Clauses), (∀ z ∈ zs, z ≠ 0) → NonZero clauses →
    body.map Prod.snd = clauses.flatMap (· ++ [0]) →
      (rows (zs ++ [0]) body = row (zs ++ [0]) ++ clauses ↔
        (∀ c ∈ clauses, c ≠ []) ∧ Aligned true body)

/-- Inside a clause, of which the line holds the integers so far. -/
def ReadsFromOpen (body : Body) : Prop :=
  ∀ (cur zs : List ℤ) (clauses : Clauses), cur ≠ [] → (∀ z ∈ cur, z ≠ 0) → (∀ z ∈ zs, z ≠ 0) →
    NonZero clauses → body.map Prod.snd = zs ++ 0 :: clauses.flatMap (· ++ [0]) →
      (rows cur body = (cur ++ zs) :: clauses ↔
        (∀ c ∈ clauses, c ≠ []) ∧ Aligned false body)

theorem readsFromClosed_cons {g : Gap} {z : ℤ} {body : Body} (hopen : ReadsFromOpen body) :
    ReadsFromClosed ((g, z) :: body) := by
  intro zs clauses hzs hnz hstream
  cases clauses with
  | nil => cases hstream
  | cons clause clauses =>
    have hnz' : NonZero clauses := fun c hc => hnz c (List.mem_cons_of_mem _ hc)
    rw [List.map_cons, List.flatMap_cons] at hstream
    cases clause with
    | nil =>
      -- an empty clause is never read
      constructor
      · intro h
        have hmem : [] ∈ rows (zs ++ [0]) ((g, z) :: body) := by simp [h]
        exact absurd hmem (nil_notMem_rows _ _)
      · intro h
        exact absurd rfl (h.1 [] List.mem_cons_self)
    | cons z' zs' =>
      rw [List.append_assoc, List.cons_append] at hstream
      obtain ⟨rfl, hrest⟩ := List.cons.inj hstream
      have hclause := hnz (z :: zs') List.mem_cons_self
      have hz : z ≠ 0 := hclause z List.mem_cons_self
      have hopen' := hopen [z] zs' clauses (by simp) (by simpa using hz)
        (fun y hy => hclause y (List.mem_cons_of_mem z hy)) hnz' hrest
      cases hg : g.breaks with
      | true =>
        rw [rows, hg, if_pos rfl, List.append_cancel_left_eq]
        simp only [Aligned, hg, hz, decide_false]
        simpa using hopen'
      | false =>
        constructor
        · intro h
          exact absurd h (rows_ne_of_shared_line hg z body hzs hnz)
        · intro h
          have hbreaks := h.2.1 hz
          rw [hg] at hbreaks
          cases hbreaks

theorem readsFromOpen_cons {g : Gap} {z : ℤ} {body : Body} (hclosed : ReadsFromClosed body)
    (hopen : ReadsFromOpen body) : ReadsFromOpen ((g, z) :: body) := by
  intro cur zs clauses hne hcur hzs hnz hstream
  rw [List.map_cons] at hstream
  cases zs with
  | nil =>
    obtain ⟨rfl, hrest⟩ := List.cons.inj hstream
    have haligned : Aligned false ((g, 0) :: body) ↔ Aligned true body := by simp [Aligned]
    rw [haligned, List.append_nil]
    cases hg : g.breaks with
    | true =>
      have hclosed' := hclosed [] clauses (by simp) hnz hrest
      rw [row_closed, if_pos rfl, List.nil_append, List.nil_append] at hclosed'
      rw [rows, hg, if_pos rfl, row_open hne hcur, List.singleton_append, List.cons.injEq,
        and_iff_right rfl, hclosed']
    | false =>
      have hclosed' := hclosed cur clauses hcur hnz hrest
      rw [row_closed, if_neg hne, List.singleton_append] at hclosed'
      rw [rows, hg, if_neg Bool.false_ne_true, hclosed']
  | cons z' zs =>
    obtain ⟨rfl, hrest⟩ := List.cons.inj hstream
    have hz : z ≠ 0 := hzs z List.mem_cons_self
    cases hg : g.breaks with
    | true =>
      -- the line ends inside the clause
      rw [rows, hg, if_pos rfl, row_open hne hcur, List.singleton_append, List.cons.injEq]
      simp [Aligned, hg, hz]
    | false =>
      have hopen' := hopen (cur ++ [z]) zs clauses (by simp) ?_
        (fun y hy => hzs y (List.mem_cons_of_mem z hy)) hnz hrest
      · rw [List.append_assoc, List.singleton_append] at hopen'
        rw [rows, hg, if_neg Bool.false_ne_true, hopen']
        simp [Aligned, hg, hz]
      · intro y hy
        rcases List.mem_append.mp hy with hy | hy
        · exact hcur y hy
        · rwa [List.mem_singleton.mp hy]

theorem reads (body : Body) : ReadsFromClosed body ∧ ReadsFromOpen body := by
  induction body with
  | nil =>
    constructor
    · intro zs clauses hzs hnz hstream
      cases clauses with
      | nil => simp [rows, Aligned]
      | cons c clauses => simp at hstream
    · intro cur zs clauses hne hcur hzs hnz hstream
      simp at hstream
  | cons t body ih => exact ⟨readsFromClosed_cons ih.2, readsFromOpen_cons ih.1 ih.2⟩

theorem rows_start {body : Body} (h : ∀ t ∈ body.head?, t.1.breaks = true) :
    rows [] body = rows ([] ++ [0]) body := by
  cases body with
  | nil => rfl
  | cons t body =>
    have ht := h t rfl
    rw [rows, rows, if_pos ht, if_pos ht]
    rfl

/-- A file is read as the clauses it holds exactly when none of them is empty,
each of them has a line of its own, with or without its closing 0, and no
integer has too many digits for `int`. -/
theorem parseDimacs_iff (d : Document) {clauses : Clauses} (hnz : NonZero clauses)
    (hholds : d.Holds clauses) :
    parseDimacs d.text = some ((d.nVars : ℤ), clauses) ↔
      (∀ c ∈ clauses, c ≠ []) ∧ Aligned true d.body ∧ d.AllShort := by
  have hreads := (reads d.body).1 [] clauses (by simp) hnz hholds
  rw [← rows_start d.body_starts] at hreads
  rw [parseDimacs_eq, ← and_assoc]
  by_cases hshort : d.AllShort
  · rw [if_pos hshort, Option.some.injEq, Prod.mk.injEq, and_iff_right rfl, and_iff_left hshort]
    exact hreads
  · rw [if_neg hshort]
    exact iff_of_false nofun fun h => hshort h.2

def onLine : Gap := .spaces ⟨' ', by decide⟩ []

def newLine : Gap := .lines [] ⟨'\n', by decide⟩ [] []

def document (nVars nClauses : ℕ) (body : Body) (h : ∀ t ∈ body.head?, t.1.breaks = true) :
    Document :=
  ⟨[], [], nVars, nClauses, (⟨' ', by decide⟩, []), (⟨' ', by decide⟩, []), body, h, none⟩

def twoClauses : Document :=
  document 2 2 [(newLine, 1), (onLine, -2), (onLine, 0), (newLine, 2), (newLine, 0)]
    (by simp [newLine, Gap.breaks])

theorem parseDimacs_two_clauses : parseDimacs twoClauses.text = some (2, [[1, -2], [2]]) := by
  have hholds : twoClauses.Holds [[1, -2], [2]] := rfl
  have haligned : Aligned true twoClauses.body := by
    simp [twoClauses, document, Aligned, newLine, onLine, Gap.breaks]
  have hshort : twoClauses.AllShort := ⟨by decide, by decide⟩
  exact (parseDimacs_iff twoClauses (by simp [NonZero]) hholds).mpr ⟨by simp, haligned, hshort⟩

def splitClause : Document :=
  document 2 1 [(newLine, 1), (newLine, 2), (onLine, 0)] (by simp [newLine, Gap.breaks])

/-- The clause of 1 and 2, with a line break between the two, is read as two
clauses. -/
theorem clause_split_at_line_break :
    splitClause.text =
      ['p', ' ', 'c', 'n', 'f', ' ', '2', ' ', '1', '\n', '1', '\n', '2', ' ', '0'] ∧
    splitClause.Holds [[1, 2]] ∧ parseDimacs splitClause.text = some (2, [[1], [2]]) := by
  have hshort : splitClause.AllShort := ⟨by decide, by decide⟩
  refine ⟨by decide, rfl, ?_⟩
  rw [parseDimacs_eq, if_pos hshort]
  rfl

end EthernetSoc.Dimacs
