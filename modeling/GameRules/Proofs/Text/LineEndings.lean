/-
Line endings. A text is cut at every carriage return and at every line feed, so where the two come
together it is cut twice, and an empty piece is left between two lines. An empty piece holds no
parentheses: with a carriage return before every line feed, a text is accepted or refused as before,
and for the same reason. But empty pieces are counted: what stands on line n is reported on line
2n - 1, so only the first line keeps its number.
-/
import GameRules.Program.Validation
import GameRules.Proofs.Text.Balance

namespace GameRules

/-- The same fault, met on another line. -/
def Fault.onLine (move : Nat → Nat) : Fault → Fault
  | extraClose line text => extraClose (move line) text
  | extraOpen line => extraOpen (move line)
  | f => f

namespace Fault

theorem onLine_code (move : Nat → Nat) (f : Fault) : (f.onLine move).code = f.code := by
  cases f <;> rfl

theorem onLine_subject (move : Nat → Nat) {f : Fault} {n : Nat} (h : f.subject = .line n) :
    (f.onLine move).subject = .line (move n) := by
  cases f <;> cases h <;> rfl

/-- A fault stays the same exactly if its line does. -/
theorem onLine_eq_iff (move : Nat → Nat) {f : Fault} {n : Nat} (h : f.subject = .line n) :
    f.onLine move = f ↔ move n = n := by
  cases f <;> cases h <;> simp [onLine]

end Fault

namespace Text

/-- The text with a carriage return before every line feed. -/
def withReturns (text : String) : String :=
  String.ofList (text.toList.flatMap fun c => if c = '\n' then ['\r', '\n'] else [c])

/-- The number that a line has once an empty piece stands between any two lines. -/
def spaced (n : Nat) : Nat := 2 * n - 1

/-! ## Pieces -/

theorem exists_pieces (cs : List Char) : ∃ piece rest, pieces cs = piece :: rest := by
  cases cs with
  | nil => exact ⟨[], [], rfl⟩
  | cons c cs =>
    unfold pieces
    split
    · exact ⟨_, _, rfl⟩
    · split <;> exact ⟨_, _, rfl⟩

theorem pieces_of_break {c : Char} (hc : isLineBreak c = true) (cs : List Char) :
    pieces (c :: cs) = [] :: pieces cs := by
  rw [pieces, if_pos hc]

theorem pieces_of_not_break {c : Char} (hc : ¬ isLineBreak c = true) {cs piece : List Char}
    {rest : List (List Char)} (h : pieces cs = piece :: rest) :
    pieces (c :: cs) = (c :: piece) :: rest := by
  rw [pieces, if_neg hc, h]

/-- Every line feed that gets a carriage return leaves one more piece, and that piece is empty. -/
theorem pieces_withReturns {cs : List Char} (h : '\r' ∉ cs) :
    pieces (cs.flatMap fun c => if c = '\n' then ['\r', '\n'] else [c]) =
      (pieces cs).intersperse [] := by
  induction cs with
  | nil => rfl
  | cons c cs ih =>
    obtain ⟨hr, hcs⟩ : '\r' ≠ c ∧ '\r' ∉ cs := by simpa using h
    obtain ⟨piece, rest, hp⟩ := exists_pieces cs
    have ih := ih hcs
    rw [hp] at ih
    rw [List.flatMap_cons]
    by_cases hc : c = '\n'
    · subst hc
      simp only [if_true, List.cons_append, List.nil_append]
      rw [pieces_of_break (by decide), pieces_of_break (by decide), pieces_of_break (by decide), hp,
        ih, List.intersperse_cons_cons]
    · have hbreak : ¬ isLineBreak c = true := by simp [isLineBreak, hc, Ne.symm hr]
      simp only [if_neg hc, List.cons_append, List.nil_append]
      rw [pieces_of_not_break hbreak hp]
      -- the character joins the first piece, before and after the spacing
      cases rest with
      | nil => exact pieces_of_not_break hbreak ih
      | cons next rest => exact pieces_of_not_break hbreak ih

/-! ## Marks -/

/-- The same parenthesis on another line. -/
def Mark.onLine (move : Nat → Nat) (m : Mark) : Mark := { m with line := move m.line }

theorem lineMarks_onLine (move : Nat → Nat) (n : Nat) (text : String) :
    lineMarks (move n) text = (lineMarks n text).map (Mark.onLine move) := by
  simp only [lineMarks_eq, List.map_map]
  rfl

/-- The parentheses of spaced lines, counted from the place that the first of them has. -/
theorem marks_intersperse (n : Nat) (ps : List (List Char)) :
    marks (spaced (n + 1)) ((ps.intersperse []).map String.ofList) =
      (marks (n + 1) (ps.map String.ofList)).map (Mark.onLine spaced) := by
  induction ps generalizing n with
  | nil => rfl
  | cons p ps ih =>
    cases ps with
    | nil =>
      simp only [List.intersperse_singleton, List.map_cons, List.map_nil, marks, List.append_nil]
      exact lineMarks_onLine spaced (n + 1) _
    | cons q ps =>
      -- the empty piece has a number, and the line behind it the next one
      have hempty : lineMarks (spaced (n + 1) + 1) (String.ofList []) = [] := by simp [lineMarks]
      have hnext : spaced (n + 1) + 1 + 1 = spaced (n + 1 + 1) := by
        unfold spaced
        omega
      rw [List.intersperse_cons_cons, List.map_cons, List.map_cons, List.map_cons, marks, marks,
        marks, hempty, hnext, ih (n + 1), lineMarks_onLine spaced, List.nil_append, List.map_append]

/-- Matching compares no lines, so it finds the same wherever the parentheses stand. -/
theorem matchFault?_onLine (move : Nat → Nat) (opened : List Nat) (ms : List Mark) :
    matchFault? (opened.map move) (ms.map (Mark.onLine move)) =
      (matchFault? opened ms).map (Fault.onLine move) := by
  induction ms generalizing opened with
  | nil => cases opened <;> rfl
  | cons m ms ih =>
    rw [List.map_cons, matchFault?_cons, matchFault?_cons]
    cases hm : m.opening with
    | true =>
      rw [if_pos rfl, if_pos (show (m.onLine move).opening = true from hm)]
      exact ih (m.line :: opened)
    | false =>
      have hm' : ¬ (m.onLine move).opening = true := by simp [Mark.onLine, hm]
      rw [if_neg Bool.false_ne_true, if_neg hm']
      cases opened with
      | nil => rfl
      | cons line opened => exact ih opened

theorem parenthesisFault?_withReturns {text : String} (h : '\r' ∉ text.toList) :
    parenthesisFault? (lines (withReturns text)) =
      (parenthesisFault? (lines text)).map (Fault.onLine spaced) := by
  unfold parenthesisFault? lines withReturns
  rw [String.toList_ofList, pieces_withReturns h]
  have hmarks := marks_intersperse 0 (pieces text.toList)
  rw [Nat.zero_add, show spaced 1 = 1 from rfl] at hmarks
  rw [hmarks]
  exact matchFault?_onLine spaced [] _

/-! ## Lines of faults -/

theorem one_le_line {ls : List String} {m : Mark} (h : m ∈ parentheses ls) : 1 ≤ m.line := by
  unfold parentheses at h
  obtain ⟨⟨text, n⟩, hn, hm⟩ := List.mem_flatMap.1 h
  obtain ⟨c, -, rfl⟩ := List.mem_map.1 hm
  exact (List.mem_zipIdx hn).1

/-- A fault of the parentheses names a line, and lines are counted from one. -/
theorem exists_line {ls : List String} {f : Fault} (h : parenthesisFault? ls = some f) :
    ∃ n, 1 ≤ n ∧ f.subject = .line n := by
  have hv := parenthesisFault?_verdict ls
  rw [h] at hv
  cases hv with
  | @extraClose p c hs =>
    have hc : c ∈ parentheses ls := hs.beginning.subset (by simp)
    exact ⟨c.line, one_le_line hc, rfl⟩
  | @extraOpen opened p b o _ hl =>
    have ho : o ∈ parentheses ls := by
      rw [hl.split]
      simp
    exact ⟨o.line, one_le_line ho, rfl⟩

end Text

/-! ## Validation of a text -/

open Text

theorem validateText_of_none {text : String} (h : parenthesisFault? (lines text) = none)
    (items : List Node) (ks : List Keyword) : validateText text items ks = validate items ks := by
  unfold validateText
  rw [h]
  rfl

theorem validateText_of_some {text : String} {f : Fault} (h : parenthesisFault? (lines text) = some f)
    (items : List Node) (ks : List Keyword) :
    validateText text items ks = ⟨.error (.fault f), []⟩ := by
  unfold validateText
  rw [h]
  rfl

/-- With a carriage return before every line feed, the parentheses of a text are accepted as before,
and then the whole run is the same; or they are refused with the same code, on line 2n - 1 in place
of n. So the outcome is the same exactly if there is no fault of the parentheses behind the first
line. -/
theorem validateText_withReturns (text : String) (h : '\r' ∉ text.toList) (items : List Node)
    (ks : List Keyword) :
    (parenthesisFault? (lines text) = none →
      parenthesisFault? (lines (withReturns text)) = none ∧
        validateText (withReturns text) items ks = validateText text items ks) ∧
      (∀ f n, parenthesisFault? (lines text) = some f → f.subject = .line n →
        ∃ f', f'.code = f.code ∧ f'.subject = .line (2 * n - 1) ∧
          validateText text items ks = ⟨.error (.fault f), []⟩ ∧
          validateText (withReturns text) items ks = ⟨.error (.fault f'), []⟩) ∧
      ((validateText (withReturns text) items ks).outcome = (validateText text items ks).outcome ↔
        ∀ f, parenthesisFault? (lines text) = some f → f.subject = .line 1) := by
  have hreturns := parenthesisFault?_withReturns h
  cases hf : parenthesisFault? (lines text) with
  | none =>
    rw [hf, Option.map_none] at hreturns
    have hsame : validateText (withReturns text) items ks = validateText text items ks := by
      rw [validateText_of_none hreturns, validateText_of_none hf]
    exact ⟨fun _ => ⟨hreturns, hsame⟩, nofun, by simp [hsame]⟩
  | some f =>
    rw [hf, Option.map_some] at hreturns
    have hrun := validateText_of_some hf items ks
    have hrun' := validateText_of_some hreturns items ks
    obtain ⟨n, hn, hline⟩ := exists_line hf
    refine ⟨nofun, ?_, ?_⟩
    · rintro f₁ n₁ hf₁ hn₁
      cases hf₁
      exact ⟨_, f.onLine_code spaced, Fault.onLine_subject spaced hn₁, hrun, hrun'⟩
    · rw [hrun, hrun']
      simp only [Except.error.injEq, Failure.fault.injEq, Option.some.injEq, forall_eq', hline,
        Fault.onLine_eq_iff spaced hline, Subject.line.injEq]
      unfold spaced
      omega

/-- Two lines with a parenthesis too many at the end of the second. -/
def robotText : String := "(role robot)\n(init off))"

/-- With carriage returns, the parenthesis too many is reported on a third line. -/
theorem fault_of_robotText :
    ∃ f', f'.code = "E010" ∧ f'.subject = .line 3 ∧
      validateText robotText [] [] = ⟨.error (.fault (.extraClose 2 "(init off))")), []⟩ ∧
      validateText (withReturns robotText) [] [] = ⟨.error (.fault f'), []⟩ :=
  (validateText_withReturns robotText (by decide) [] []).2.1 (.extraClose 2 "(init off))") 2
    (by decide +kernel) rfl

/-- The line that is reported for a text is not always the one that is reported with carriage
returns. -/
theorem line_not_kept :
    ¬ ∀ (text : String) (items : List Node) (ks : List Keyword), '\r' ∉ text.toList →
      ∀ f n, (validateText text items ks).outcome = .error (.fault f) → f.subject = .line n →
        ∃ f', (validateText (withReturns text) items ks).outcome = .error (.fault f') ∧
          f'.code = f.code ∧ f'.subject = .line n := by
  intro h
  obtain ⟨f', hf', -, hline⟩ := h robotText [] [] (by decide) (.extraClose 2 "(init off))") 2
    (by decide +kernel) rfl
  have hthird : (validateText (withReturns robotText) [] []).outcome =
      .error (.fault (.extraClose 3 "(init off))")) := by
    decide +kernel
  rw [hthird] at hf'
  cases hf'
  cases hline

end GameRules
