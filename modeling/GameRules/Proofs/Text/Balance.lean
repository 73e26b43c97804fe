/-
Balanced parentheses. The parentheses of a text are those before the first semicolon of their line.
A text passes exactly if they are balanced, in the sense of a grammar. Otherwise it is refused at
the line where for the first time more is closed than opened, or, if that never happens, at the line
of the one opening parenthesis behind which everything is balanced.
-/
import GameRules.Text.Parentheses
import Mathlib.Data.List.Infix

namespace GameRules.Text

/-! ## What is asked of a text -/

/-- The parentheses before the first semicolon of their line, with the number of the line. -/
def parentheses (lines : List String) : List Mark :=
  (lines.zipIdx 1).flatMap fun (text, n) =>
    ((text.toList.takeWhile (· ≠ ';')).filter fun c => c = '(' ∨ c = ')').map fun c =>
      ⟨c = '(', n, text⟩

/-- Parentheses in pairs: nothing, or a pair around balanced parentheses and balanced ones behind
it. -/
inductive Balanced : List Mark → Prop where
  | nothing : Balanced []
  | pair {o c : Mark} {inner rest : List Mark} : o.opening = true → c.opening = false →
    Balanced inner → Balanced rest → Balanced (o :: inner ++ c :: rest)

/-- More parentheses close than open. -/
def Overclosed (ms : List Mark) : Prop := ms.countP (·.opening) < ms.countP (!·.opening)

/-- No beginning is overclosed. -/
def NeverOverclosed (ms : List Mark) : Prop := ∀ q, q <+: ms → ¬ Overclosed q

/-- The shortest beginning in which more parentheses close than open. -/
structure ShortestOverclosed (ms p : List Mark) : Prop where
  beginning : p <+: ms
  overclosed : Overclosed p
  shortest : ∀ q, q <+: ms → Overclosed q → p.length ≤ q.length

/-- A parenthesis that opens, and behind which all is balanced. -/
structure LastOpen (ms before : List Mark) (o : Mark) (after : List Mark) : Prop where
  split : ms = before ++ o :: after
  opening : o.opening = true
  balanced : Balanced after

/-- Some lines are refused with a code at a line. -/
def RefusedAt (lines : List String) (code : String) (n : Nat) : Prop :=
  ∃ f, parenthesisFault? lines = some f ∧ f.code = code ∧ f.subject = .line n

/-! ## Depth -/

/-- How many more parentheses open than close. -/
def depth (ms : List Mark) : Int := ms.countP (·.opening) - ms.countP (!·.opening)

theorem overclosed_iff {ms : List Mark} : Overclosed ms ↔ depth ms < 0 := by
  unfold Overclosed depth
  omega

@[simp] theorem depth_nil : depth [] = 0 := rfl

@[simp] theorem depth_append (a b : List Mark) : depth (a ++ b) = depth a + depth b := by
  simp only [depth, List.countP_append]
  omega

theorem depth_cons_opening {m : Mark} (h : m.opening = true) (ms : List Mark) :
    depth (m :: ms) = depth ms + 1 := by
  simp only [depth, List.countP_cons, h, Bool.not_true, Bool.false_eq_true, if_true, if_false]
  omega

theorem depth_cons_closing {m : Mark} (h : m.opening = false) (ms : List Mark) :
    depth (m :: ms) = depth ms - 1 := by
  simp only [depth, List.countP_cons, h, Bool.not_false, Bool.false_eq_true, if_true, if_false]
  omega

namespace Balanced

theorem append {a b : List Mark} (ha : Balanced a) (hb : Balanced b) : Balanced (a ++ b) := by
  induction ha with
  | nothing => exact hb
  | pair ho hc hi _ _ ih =>
    rw [List.append_assoc, List.cons_append]
    exact .pair ho hc hi ih

theorem depth_eq {b : List Mark} (h : Balanced b) : depth b = 0 := by
  induction h with
  | nothing => rfl
  | pair ho hc _ _ ihi ihr =>
    rw [depth_append, depth_cons_opening ho, depth_cons_closing hc]
    omega

/-- No beginning of balanced parentheses is overclosed. -/
theorem depth_nonneg {b q : List Mark} (h : Balanced b) (hq : q <+: b) : 0 ≤ depth q := by
  obtain ⟨r, hr⟩ := hq
  induction h generalizing q r with
  | nothing =>
    have hq : q = [] := (List.append_eq_nil_iff.1 hr).1
    simp [hq]
  | @pair o c inner rest ho hc hi _ ihi ihr =>
    cases q with
    | nil => simp
    | cons m q =>
      simp only [List.cons_append, List.cons.injEq] at hr
      obtain ⟨rfl, hr⟩ := hr
      have hin := hi.depth_eq
      rw [depth_cons_opening ho]
      -- the beginning stops inside the pair, or goes past its end
      rcases List.append_eq_append_iff.1 hr with ⟨a, ha, -⟩ | ⟨a, rfl, ha⟩
      · have hq := ihi a ha.symm
        omega
      · cases a with
        | nil =>
          simp only [List.append_nil]
          omega
        | cons m a =>
          simp only [List.cons_append, List.cons.injEq] at ha
          obtain ⟨rfl, ha⟩ := ha
          have hrest := ihr r ha.symm
          rw [depth_append, depth_cons_closing hc]
          omega

end Balanced

/-! ## What is left open -/

/-- Parentheses that leave some open, given by their lines with the latest first: before, between
and behind the open ones all is balanced. -/
inductive LeavesOpen : List Nat → List Mark → Prop where
  | none {b : List Mark} : Balanced b → LeavesOpen [] b
  | one {opened : List Nat} {p b : List Mark} {o : Mark} : LeavesOpen opened p →
    o.opening = true → Balanced b → LeavesOpen (o.line :: opened) (p ++ o :: b)

namespace LeavesOpen

variable {opened : List Nat} {p b : List Mark} {m : Mark}

theorem append_balanced (h : LeavesOpen opened p) (hb : Balanced b) : LeavesOpen opened (p ++ b) := by
  cases h with
  | none hp => exact .none (hp.append hb)
  | one h ho hp =>
    rw [List.append_assoc, List.cons_append]
    exact .one h ho (hp.append hb)

/-- A parenthesis that opens joins those left open. -/
theorem opening (h : LeavesOpen opened p) (hm : m.opening = true) :
    LeavesOpen (m.line :: opened) (p ++ [m]) :=
  .one h hm .nothing

/-- A parenthesis that closes makes a pair with the latest one left open. -/
theorem closing {line : Nat} (h : LeavesOpen (line :: opened) p) (hm : m.opening = false) :
    LeavesOpen opened (p ++ [m]) := by
  cases h with
  | @one _ p b o h ho hb =>
    rw [List.append_assoc]
    exact h.append_balanced (.pair ho hm hb .nothing)

theorem depth_eq (h : LeavesOpen opened p) : depth p = opened.length := by
  induction h with
  | none hb => exact hb.depth_eq
  | one _ ho hb ih =>
    have hb := hb.depth_eq
    rw [depth_append, depth_cons_opening ho, List.length_cons]
    omega

theorem depth_nonneg {q : List Mark} (h : LeavesOpen opened p) (hq : q <+: p) : 0 ≤ depth q := by
  obtain ⟨r, hr⟩ := hq
  induction h generalizing q r with
  | none hb => exact hb.depth_nonneg ⟨r, hr⟩
  | @one opened p b o h ho hb ih =>
    rcases List.append_eq_append_iff.1 hr with ⟨a, ha, -⟩ | ⟨a, rfl, ha⟩
    · exact ih a ha.symm
    · have hp := h.depth_eq
      cases a with
      | nil =>
        rw [List.append_nil]
        omega
      | cons m a =>
        simp only [List.cons_append, List.cons.injEq] at ha
        obtain ⟨rfl, ha⟩ := ha
        have hin := hb.depth_nonneg ⟨r, ha.symm⟩
        rw [depth_append, depth_cons_opening ho]
        omega

end LeavesOpen

/-! ## One place for each fault -/

theorem ShortestOverclosed.unique {ms p q : List Mark} (hp : ShortestOverclosed ms p)
    (hq : ShortestOverclosed ms q) : p = q := by
  have hle := hp.shortest q hq.beginning hq.overclosed
  have hge := hq.shortest p hp.beginning hp.overclosed
  exact (List.prefix_of_prefix_length_le hp.beginning hq.beginning hle).eq_of_length (by omega)

theorem ShortestOverclosed.not_neverOverclosed {ms p : List Mark} (h : ShortestOverclosed ms p) :
    ¬ NeverOverclosed ms :=
  fun hnever => hnever p h.beginning h.overclosed

/-- A parenthesis that closes behind balanced ones ends the shortest overclosed beginning. -/
theorem Balanced.shortestOverclosed {b : List Mark} (hb : Balanced b) {c : Mark}
    (hc : c.opening = false) (rest : List Mark) :
    ShortestOverclosed (b ++ c :: rest) (b ++ [c]) where
  beginning := ⟨rest, by simp⟩
  overclosed := by
    have hin := hb.depth_eq
    rw [overclosed_iff, depth_append, depth_cons_closing hc, depth_nil]
    omega
  shortest q hq ho := by
    by_contra hlt
    have hle : q.length ≤ b.length := by
      simp only [List.length_append, List.length_singleton] at hlt
      omega
    have hnonneg := hb.depth_nonneg (List.prefix_of_prefix_length_le hq (List.prefix_append _ _) hle)
    rw [overclosed_iff] at ho
    omega

namespace LastOpen

variable {ms p q b a : List Mark} {o m : Mark}

/-- One that comes later would stand in the balanced rest behind the other, and never be closed
there. -/
theorem length_le (h : LastOpen ms p o b) (h' : LastOpen ms q m a) : q.length ≤ p.length := by
  rcases List.append_eq_append_iff.1 (h.split.symm.trans h'.split) with ⟨d, hd, he⟩ | ⟨d, hd, -⟩
  · cases d with
    | nil => simp [hd]
    | cons x d =>
      simp only [List.cons_append, List.cons.injEq] at he
      obtain ⟨rfl, rfl⟩ := he
      have hnonneg := h.balanced.depth_nonneg (List.prefix_append d (m :: a))
      have hb := h.balanced.depth_eq
      have ha := h'.balanced.depth_eq
      rw [depth_append, depth_cons_opening h'.opening] at hb
      omega
  · simp [hd]

theorem unique (h : LastOpen ms p o b) (h' : LastOpen ms q m a) : q = p ∧ m = o ∧ a = b := by
  have hlen : q.length = p.length := Nat.le_antisymm (h.length_le h') (h'.length_le h)
  obtain ⟨hp, hrest⟩ := List.append_inj (h'.split.symm.trans h.split) hlen
  exact ⟨hp, List.cons.inj hrest⟩

end LastOpen

/-! ## Where matching ends -/

/-- What the outcome of a match says of the parentheses: they are balanced, or one ends their shortest
overclosed beginning, or one is left open behind others left open. -/
inductive Verdict (ms : List Mark) : Option Fault → Prop where
  | balanced : Balanced ms → Verdict ms none
  | extraClose {p : List Mark} {c : Mark} : ShortestOverclosed ms (p ++ [c]) →
    Verdict ms (some (.extraClose c.line c.text))
  | extraOpen {opened : List Nat} {p b : List Mark} {o : Mark} : LeavesOpen opened p →
    LastOpen ms p o b → Verdict ms (some (.extraOpen o.line))

theorem matchFault?_cons (opened : List Nat) (m : Mark) (rest : List Mark) :
    matchFault? opened (m :: rest) =
      if m.opening then matchFault? (m.line :: opened) rest
      else
        match opened with
        | [] => some (.extraClose m.line m.text)
        | _ :: opened => matchFault? opened rest := by
  cases opened <;> rfl

/-- Matching goes on from what has been left open so far. -/
theorem LeavesOpen.verdict {opened : List Nat} {p : List Mark} (h : LeavesOpen opened p)
    (rest : List Mark) : Verdict (p ++ rest) (matchFault? opened rest) := by
  induction rest generalizing opened p with
  | nil =>
    rw [List.append_nil]
    cases h with
    | none hb => exact .balanced hb
    | one h ho hb => exact .extraOpen h ⟨rfl, ho, hb⟩
  | cons m rest ih =>
    have hread : p ++ m :: rest = p ++ [m] ++ rest := by simp
    rw [matchFault?_cons]
    cases hm : m.opening with
    | true =>
      rw [if_pos rfl, hread]
      exact ih (h.opening hm)
    | false =>
      rw [if_neg (by decide)]
      cases opened with
      | nil =>
        cases h with
        | none hb => exact .extraClose (hb.shortestOverclosed hm rest)
      | cons line opened =>
        rw [hread]
        exact ih (h.closing hm)

theorem lineMarks_eq (n : Nat) (text : String) :
    lineMarks n text = ((text.toList.takeWhile (· ≠ ';')).filter fun c => c = '(' ∨ c = ')').map
      fun c => ⟨c = '(', n, text⟩ := by
  unfold lineMarks
  induction text.toList.takeWhile (· ≠ ';') with
  | nil => rfl
  | cons c cs ih =>
    rw [List.filterMap_cons, ih, List.filter_cons]
    by_cases ho : c = '('
    · simp [ho]
    · by_cases hc : c = ')'
      · simp [hc]
      · simp [ho, hc]

theorem marks_eq (n : Nat) (lines : List String) :
    marks n lines = (lines.zipIdx n).flatMap fun (text, n) => lineMarks n text := by
  induction lines generalizing n with
  | nil => rfl
  | cons text rest ih => rw [marks, ih, List.zipIdx_cons, List.flatMap_cons]

theorem parenthesisFault?_verdict (lines : List String) :
    Verdict (parentheses lines) (parenthesisFault? lines) := by
  have hmarks : marks 1 lines = parentheses lines := by
    simp only [marks_eq, lineMarks_eq, parentheses]
  unfold parenthesisFault?
  rw [hmarks]
  exact (LeavesOpen.none .nothing).verdict (parentheses lines)

/-! ## The faults of a text -/

theorem LeavesOpen.neverOverclosed {opened : List Nat} {ms : List Mark} (h : LeavesOpen opened ms) :
    NeverOverclosed ms := by
  intro q hq ho
  have hnonneg := h.depth_nonneg hq
  rw [overclosed_iff] at ho
  omega

theorem LastOpen.leavesOpen {opened : List Nat} {ms p b : List Mark} {o : Mark}
    (h : LastOpen ms p o b) (hp : LeavesOpen opened p) : LeavesOpen (o.line :: opened) ms := by
  rw [h.split]
  exact .one hp h.opening h.balanced

theorem LeavesOpen.not_balanced {line : Nat} {opened : List Nat} {ms : List Mark}
    (h : LeavesOpen (line :: opened) ms) : ¬ Balanced ms := by
  intro hb
  have hdepth := h.depth_eq
  rw [hb.depth_eq, List.length_cons] at hdepth
  omega

section Exact

variable {ms : List Mark} {found : Option Fault} (hv : Verdict ms found)
include hv

theorem Verdict.eq_none_iff : found = none ↔ Balanced ms := by
  cases hv with
  | balanced hb => simp [hb]
  | extraClose hs =>
    simp only [reduceCtorEq, false_iff]
    exact fun hb => hs.not_neverOverclosed (LeavesOpen.none hb).neverOverclosed
  | extraOpen hp hl =>
    simp only [reduceCtorEq, false_iff]
    exact (hl.leavesOpen hp).not_balanced

theorem Verdict.extraClose_iff {n : Nat} :
    (∃ f, found = some f ∧ f.code = "E010" ∧ f.subject = .line n) ↔
      ∃ p c, ShortestOverclosed ms (p ++ [c]) ∧ c.line = n := by
  constructor
  · rintro ⟨f, rfl, hcode, hline⟩
    cases hv with
    | extraClose hs =>
      cases hline
      exact ⟨_, _, hs, rfl⟩
    | extraOpen _ _ => simp [Fault.code] at hcode
  · rintro ⟨p, c, hs, rfl⟩
    cases hv with
    | balanced hb => exact absurd (LeavesOpen.none hb).neverOverclosed hs.not_neverOverclosed
    | extraClose hs' =>
      obtain ⟨-, hc⟩ := List.append_inj' (hs.unique hs') rfl
      cases hc
      exact ⟨_, rfl, rfl, rfl⟩
    | extraOpen hp hl => exact absurd (hl.leavesOpen hp).neverOverclosed hs.not_neverOverclosed

theorem Verdict.extraOpen_iff {n : Nat} :
    (∃ f, found = some f ∧ f.code = "E011" ∧ f.subject = .line n) ↔
      NeverOverclosed ms ∧ ¬ Balanced ms ∧ ∃ p o b, LastOpen ms p o b ∧ o.line = n ∧
        ∀ p' o' b', LastOpen ms p' o' b' → p' = p ∧ o' = o ∧ b' = b := by
  constructor
  · rintro ⟨f, rfl, hcode, hline⟩
    cases hv with
    | extraClose _ => simp [Fault.code] at hcode
    | extraOpen hp hl =>
      cases hline
      have hleaves := hl.leavesOpen hp
      exact ⟨hleaves.neverOverclosed, hleaves.not_balanced, _, _, _, hl, rfl, fun _ _ _ => hl.unique⟩
  · rintro ⟨hnever, hb, p, o, b, hl, rfl, -⟩
    cases hv with
    | balanced hb' => exact absurd hb' hb
    | extraClose hs => exact absurd hnever hs.not_neverOverclosed
    | extraOpen _ hl' =>
      obtain ⟨-, rfl, -⟩ := hl.unique hl'
      exact ⟨_, rfl, rfl, rfl⟩

end Exact

/-- A text passes exactly if its parentheses are balanced. It is refused for closing too much exactly
at the line where its shortest overclosed beginning ends, and for leaving something open exactly at
the line of the only opening parenthesis behind which all is balanced. -/
theorem parenthesisFault?_balanced_or_located (lines : List String) :
    (parenthesisFault? lines = none ↔ Balanced (parentheses lines)) ∧
      (∀ n, RefusedAt lines "E010" n ↔
        ∃ p c, ShortestOverclosed (parentheses lines) (p ++ [c]) ∧ c.line = n) ∧
      ∀ n, RefusedAt lines "E011" n ↔
        NeverOverclosed (parentheses lines) ∧ ¬ Balanced (parentheses lines) ∧
          ∃ p o b, LastOpen (parentheses lines) p o b ∧ o.line = n ∧
            ∀ p' o' b', LastOpen (parentheses lines) p' o' b' → p' = p ∧ o' = o ∧ b' = b := by
  have hv := parenthesisFault?_verdict lines
  exact ⟨hv.eq_none_iff, fun n => hv.extraClose_iff, fun n => hv.extraOpen_iff⟩

/-- A comment hides its parentheses, and of two that are left open the later one is reported. -/
example : parenthesisFault? ["(role x) ; (", "(legal", "(goal (x) ; )"] = some (.extraOpen 3) := by
  decide

end GameRules.Text
