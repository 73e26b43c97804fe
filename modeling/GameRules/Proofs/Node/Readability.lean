/-
Surface syntax can be read in one way only. A printed term or literal begins with a word, and the
word together with what follows it tells the kind of the node; where the node ends is told by what
may stand behind it. So behind two printed nodes also the rests cancel, and this carries over from
terms to literals, statements and whole descriptions: different descriptions are printed differently.
-/
import GameRules.Node.Printer

namespace GameRules

/-! ## Words -/

namespace Text

/-- The characters that stand between words. -/
def delimiters : List Char := [' ', '\n', '(', ')', ',', '.']

/-- Some characters that are not empty and hold no delimiter. -/
def IsWord (s : String) : Prop := s.toList ≠ [] ∧ ∀ c ∈ s.toList, c ∉ delimiters

instance (s : String) : Decidable (IsWord s) :=
  decidable_of_iff (s.toList ≠ [] ∧ s.toList.all (!delimiters.contains ·) = true) (by simp [IsWord])

/-- A text that begins with a delimiter. -/
def Breaks (r : List Char) : Prop := ∃ c rest, r = c :: rest ∧ c ∈ delimiters

/-- A text that begins with a word. -/
def BeginsWord (text : List Char) : Prop := ∃ c rest, text = c :: rest ∧ c ∉ delimiters

theorem BeginsWord.append {text : List Char} (h : BeginsWord text) (r : List Char) :
    BeginsWord (text ++ r) := by
  obtain ⟨c, rest, rfl, hc⟩ := h
  exact ⟨c, rest ++ r, rfl, hc⟩

theorem BeginsWord.not_breaks {text : List Char} (h : BeginsWord text) : ¬ Breaks text := by
  rintro ⟨c, rest, rfl, hc⟩
  obtain ⟨c', rest', he, hc'⟩ := h
  cases he
  exact hc' hc

theorem IsWord.beginsWord {w : String} (h : IsWord w) : BeginsWord w.toList := by
  obtain ⟨c, rest, hc⟩ := List.exists_cons_of_ne_nil h.1
  exact ⟨c, rest, hc, h.2 c (by simp [hc])⟩

/-- The word that a text begins with. -/
def firstWord (text : List Char) : List Char := text.takeWhile (· ∉ delimiters)

/-- What a text has behind its first word. -/
def behindWord (text : List Char) : List Char := text.dropWhile (· ∉ delimiters)

section Words

variable {w : String} {r : List Char} (hw : IsWord w) (hr : Breaks r)
include hw hr

theorem firstWord_append : firstWord (w.toList ++ r) = w.toList := by
  obtain ⟨c, rest, rfl, hc⟩ := hr
  unfold firstWord
  rw [List.takeWhile_append_of_pos (by simpa using hw.2),
    List.takeWhile_cons_of_neg (by simpa using hc), List.append_nil]

theorem behindWord_append : behindWord (w.toList ++ r) = r := by
  obtain ⟨c, rest, rfl, hc⟩ := hr
  unfold behindWord
  rw [List.dropWhile_append_of_pos (by simpa using hw.2),
    List.dropWhile_cons_of_neg (by simpa using hc)]

/-- Words cancel, with the delimiters behind them. -/
theorem word_cancel {w' : String} {s : List Char} (hw' : IsWord w') (hs : Breaks s)
    (h : w.toList ++ r = w'.toList ++ s) : w = w' ∧ r = s := by
  constructor
  · have hfirst := congrArg firstWord h
    rw [firstWord_append hw hr, firstWord_append hw' hs] at hfirst
    exact String.toList_inj.1 hfirst
  · have hbehind := congrArg behindWord h
    rwa [behindWord_append hw hr, behindWord_append hw' hs] at hbehind

end Words

end Text

open Text

namespace Node

/-! ## What can be printed -/

/-- Constants, variables and functions that are spelled with words. Only variables begin with a
question mark. -/
inductive IsTerm : Node → Prop where
  | const {value : String} : IsWord value → value.toList.head? ≠ some '?' → IsTerm (.const value)
  | var {name : String} : IsWord name → name.toList.head? = some '?' → IsTerm (.var name)
  | fn {name : String} {args : List Node} : IsWord name → (∀ t ∈ args, IsTerm t) →
    IsTerm (.fn name args)

/-- Propositions and relations that are spelled with words. Two words are taken. -/
inductive IsAtom : Node → Prop where
  | prop {name : String} : IsWord name → IsAtom (.prop name)
  | rel {name : String} {args : List Node} : IsWord name → name ≠ "or" → name ≠ "distinct" →
    (∀ t ∈ args, IsTerm t) → IsAtom (.rel name args)

/-- What bodies are built from. -/
inductive IsLiteral : Node → Prop where
  | atom {n : Node} : IsAtom n → IsLiteral n
  | neg {body : Node} : IsLiteral body → IsLiteral (.neg body)
  | disj {ds : List Node} : (∀ d ∈ ds, IsLiteral d) → IsLiteral (.disj ds)
  | distinct {left right : Node} : IsTerm left → IsTerm right → IsLiteral (.distinct left right)

/-- Facts, bare propositions and rules. -/
inductive IsStatement : Node → Prop where
  | atom {n : Node} : IsAtom n → IsStatement n
  | rule {head : Node} {body : List Node} : IsAtom head → (∀ l ∈ body, IsLiteral l) →
    IsStatement (.rule head body)

/-! ## Lists of printed nodes -/

/-- What may stand behind a term or a literal: the next one, the end of its list, or the end of the
statement. -/
inductive Follows : List Char → Prop where
  | comma (rest : List Char) : Follows (',' :: rest)
  | parenthesis (rest : List Char) : Follows (')' :: rest)
  | stop (rest : List Char) : Follows (' ' :: '.' :: rest)

/-- What may stand behind the last one of a list. -/
inductive Closes : List Char → Prop where
  | parenthesis (rest : List Char) : Closes (')' :: rest)
  | stop (rest : List Char) : Closes (' ' :: '.' :: rest)

theorem Follows.breaks {r : List Char} (h : Follows r) : Breaks r := by
  cases h <;> exact ⟨_, _, rfl, by decide⟩

theorem Closes.follows {r : List Char} (h : Closes r) : Follows r := by
  cases h with
  | parenthesis rest => exact .parenthesis rest
  | stop rest => exact .stop rest

/-- Two nodes, printed with something behind, can be told apart, and so can the rests. -/
def Cancels (print : Node → String) (n m : Node) : Prop :=
  ∀ r s, Follows r → Follows s → (print n).toList ++ r = (print m).toList ++ s → n = m ∧ r = s

/-- Printed nodes with commas between them. -/
def listed (print : Node → String) (ns : List Node) : List Char :=
  [',', ' '].intercalate (ns.map fun n => (print n).toList)

/-- What stands behind the first node of a list: the others, and then what stands behind the list. -/
def behindFirst (print : Node → String) (ns : List Node) (r : List Char) : List Char :=
  match ns with
  | [] => r
  | n :: ns => ',' :: ' ' :: (listed print (n :: ns) ++ r)

theorem listed_cons (print : Node → String) (n : Node) (ns : List Node) (r : List Char) :
    listed print (n :: ns) ++ r = (print n).toList ++ behindFirst print ns r := by
  cases ns <;> simp [listed, behindFirst]

theorem not_breaks_listed {print : Node → String} {n : Node} (h : BeginsWord (print n).toList)
    (ns : List Node) (r : List Char) : ¬ Breaks (listed print (n :: ns) ++ r) := by
  rw [listed_cons]
  exact (h.append _).not_breaks

theorem behindFirst_follows (print : Node → String) (ns : List Node) {r : List Char} (h : Closes r) :
    Follows (behindFirst print ns r) := by
  cases ns with
  | nil => exact h.follows
  | cons n ns => exact .comma _

/-- Behind their first members two lists both go on or both end. -/
theorem behindFirst_cancel {print : Node → String} {ns ms : List Node} {r s : List Char}
    (hr : Closes r) (hs : Closes s) (h : behindFirst print ns r = behindFirst print ms s) :
    listed print ns ++ r = listed print ms ++ s := by
  cases ns with
  | nil =>
    cases ms with
    | nil => exact h
    | cons m ms =>
      rw [show r = _ from h] at hr
      cases hr
  | cons n ns =>
    cases ms with
    | nil =>
      rw [show s = _ from h.symm] at hs
      cases hs
    | cons m ms =>
      simp only [behindFirst, List.cons.injEq, true_and] at h
      exact h

/-- Lists cancel where their members do. -/
theorem listed_cancel {print : Node → String} {ns ms : List Node}
    (hns : ∀ n ∈ ns, BeginsWord (print n).toList) (hms : ∀ m ∈ ms, BeginsWord (print m).toList)
    (hcancel : ∀ n ∈ ns, ∀ m ∈ ms, Cancels print n m) {r s : List Char} (hr : Closes r) (hs : Closes s)
    (h : listed print ns ++ r = listed print ms ++ s) : ns = ms ∧ r = s := by
  induction ns generalizing ms with
  | nil =>
    cases ms with
    | nil => exact ⟨rfl, h⟩
    | cons m ms =>
      have hbreaks : Breaks (listed print (m :: ms) ++ s) := h ▸ hr.follows.breaks
      exact absurd hbreaks (not_breaks_listed (hms m (by simp)) ms s)
  | cons n ns ih =>
    cases ms with
    | nil =>
      have hbreaks : Breaks (listed print (n :: ns) ++ r) := h ▸ hs.follows.breaks
      exact absurd hbreaks (not_breaks_listed (hns n (by simp)) ns r)
    | cons m ms =>
      rw [listed_cons, listed_cons] at h
      obtain ⟨rfl, hrest⟩ := hcancel n (by simp) m (by simp) _ _ (behindFirst_follows print ns hr)
        (behindFirst_follows print ms hs) h
      obtain ⟨rfl, rfl⟩ := ih (fun n hn => hns n (by simp [hn])) (fun m hm => hms m (by simp [hm]))
        (fun n hn m hm => hcancel n (by simp [hn]) m (by simp [hm])) (behindFirst_cancel hr hs hrest)
      exact ⟨rfl, rfl⟩

theorem applied_append (print : Node → String) (name : String) (ns : List Node) (r : List Char) :
    (applied name (ns.map print)).toList ++ r =
      name.toList ++ '(' :: (listed print ns ++ ')' :: r) := by
  simp [applied, listed, Function.comp_def]

theorem breaks_parenthesis (r : List Char) : Breaks ('(' :: r) := ⟨_, _, rfl, by decide⟩

theorem beginsWord_applied (print : Node → String) {name : String} (hn : IsWord name) (ns : List Node) :
    BeginsWord (applied name (ns.map print)).toList := by
  have happ := applied_append print name ns []
  rw [List.append_nil] at happ
  rw [happ]
  exact hn.beginsWord.append _

/-- Applications cancel where their arguments do. -/
theorem applied_cancel {print : Node → String} {name name' : String} {ns ms : List Node}
    (hname : IsWord name) (hname' : IsWord name')
    (hns : ∀ n ∈ ns, BeginsWord (print n).toList) (hms : ∀ m ∈ ms, BeginsWord (print m).toList)
    (hcancel : ∀ n ∈ ns, ∀ m ∈ ms, Cancels print n m) {r s : List Char}
    (h : (applied name (ns.map print)).toList ++ r = (applied name' (ms.map print)).toList ++ s) :
    name = name' ∧ ns = ms ∧ r = s := by
  rw [applied_append, applied_append] at h
  obtain ⟨rfl, hargs⟩ := word_cancel hname (breaks_parenthesis _) hname' (breaks_parenthesis _) h
  rw [List.cons.injEq] at hargs
  obtain ⟨rfl, hrest⟩ := listed_cancel hns hms hcancel (.parenthesis r) (.parenthesis s) hargs.2
  exact ⟨rfl, rfl, (List.cons.inj hrest).2⟩

/-! ## Terms -/

/-- The kind of a term, read off a text that begins with it. -/
def termKind (text : List Char) : String :=
  match behindWord text with
  | '(' :: _ => "Function"
  | _ => if text.head? = some '?' then "Variable" else "Constant"

theorem printTerm_fn (name : String) (args : List Node) :
    (fn name args).printTerm = applied name (args.map printTerm) := by
  rw [printTerm, printTerms_eq_map]

theorem IsTerm.beginsWord {t : Node} (h : IsTerm t) : BeginsWord t.printTerm.toList := by
  cases h with
  | const hv _ => exact hv.beginsWord
  | var hn _ => exact hn.beginsWord
  | fn hn _ =>
    rw [printTerm_fn]
    exact beginsWord_applied printTerm hn _

/-- A word that stands alone is followed by no parenthesis. -/
theorem termKind_word {w : String} {r : List Char} (hw : IsWord w) (hr : Follows r) :
    termKind (w.toList ++ r) = if w.toList.head? = some '?' then "Variable" else "Constant" := by
  obtain ⟨c, rest, hc⟩ := List.exists_cons_of_ne_nil hw.1
  have hhead : (w.toList ++ r).head? = w.toList.head? := by simp [hc]
  unfold termKind
  rw [behindWord_append hw hr.breaks, hhead]
  cases hr <;> rfl

theorem termKind_printTerm {t : Node} (h : IsTerm t) {r : List Char} (hr : Follows r) :
    termKind (t.printTerm.toList ++ r) = t.kind := by
  cases h with
  | const hv hq => exact (termKind_word hv hr).trans (if_neg hq)
  | var hn hq => exact (termKind_word hn hr).trans (if_pos hq)
  | @fn name args hn _ =>
    unfold termKind
    rw [printTerm_fn, applied_append, behindWord_append hn (breaks_parenthesis _)]
    rfl

theorem IsTerm.kind_eq {t u : Node} (ht : IsTerm t) (hu : IsTerm u) {r s : List Char} (hr : Follows r)
    (hs : Follows s) (h : t.printTerm.toList ++ r = u.printTerm.toList ++ s) : t.kind = u.kind := by
  rw [← termKind_printTerm ht hr, h, termKind_printTerm hu hs]

theorem IsTerm.cancels {t u : Node} (ht : IsTerm t) (hu : IsTerm u) : Cancels printTerm t u := by
  -- the texts tell the kinds, so of each pair of forms only the equal ones are left
  induction ht generalizing u with
  | const hv hq =>
    intro r s hr hs h
    have hkind := (IsTerm.const hv hq).kind_eq hu hr hs h
    cases hu with
    | const hv' _ =>
      obtain ⟨rfl, hrest⟩ := word_cancel hv hr.breaks hv' hs.breaks h
      exact ⟨rfl, hrest⟩
    | _ => simp [kind] at hkind
  | var hn hq =>
    intro r s hr hs h
    have hkind := (IsTerm.var hn hq).kind_eq hu hr hs h
    cases hu with
    | var hn' _ =>
      obtain ⟨rfl, hrest⟩ := word_cancel hn hr.breaks hn' hs.breaks h
      exact ⟨rfl, hrest⟩
    | _ => simp [kind] at hkind
  | fn hn hargs ih =>
    intro r s hr hs h
    have hkind := (IsTerm.fn hn hargs).kind_eq hu hr hs h
    cases hu with
    | fn hn' hargs' =>
      rw [printTerm_fn, printTerm_fn] at h
      obtain ⟨rfl, rfl, hrest⟩ := applied_cancel hn hn' (fun t ht => (hargs t ht).beginsWord)
        (fun u hu => (hargs' u hu).beginsWord) (fun t ht u hu => ih t ht (hargs' u hu)) h
      exact ⟨rfl, hrest⟩
    | _ => simp [kind] at hkind

/-- Applications to terms cancel. -/
theorem applied_terms_cancel {name name' : String} {args args' : List Node} (hn : IsWord name)
    (hn' : IsWord name') (hargs : ∀ t ∈ args, IsTerm t) (hargs' : ∀ t ∈ args', IsTerm t)
    {r s : List Char}
    (h : (applied name (args.map printTerm)).toList ++ r =
      (applied name' (args'.map printTerm)).toList ++ s) :
    name = name' ∧ args = args' ∧ r = s :=
  applied_cancel hn hn' (fun t ht => (hargs t ht).beginsWord) (fun u hu => (hargs' u hu).beginsWord)
    (fun t ht u hu => (hargs t ht).cancels (hargs' u hu)) h

/-! ## Atoms -/

theorem printLiteral_rel (name : String) (args : List Node) :
    (rel name args).printLiteral = applied name (args.map printTerm) := by
  rw [printLiteral, printTerms_eq_map]

/-- What may stand behind an atom, also behind one in a head: a delimiter, but no arguments. -/
structure EndsAtom (r : List Char) : Prop where
  breaks : Breaks r
  no_arguments : ∀ rest, r ≠ '(' :: rest

theorem Follows.endsAtom {r : List Char} (h : Follows r) : EndsAtom r :=
  ⟨h.breaks, by cases h <;> simp⟩

theorem IsAtom.cancel {n m : Node} (hn : IsAtom n) (hm : IsAtom m) {r s : List Char}
    (hr : EndsAtom r) (hs : EndsAtom s)
    (h : n.printLiteral.toList ++ r = m.printLiteral.toList ++ s) : n = m ∧ r = s := by
  cases hn with
  | prop hw =>
    cases hm with
    | prop hw' =>
      obtain ⟨rfl, hrest⟩ := word_cancel hw hr.breaks hw' hs.breaks h
      exact ⟨rfl, hrest⟩
    | rel hw' _ _ _ =>
      rw [printLiteral_rel, applied_append] at h
      exact absurd (word_cancel hw hr.breaks hw' (breaks_parenthesis _) h).2 (hr.no_arguments _)
  | rel hw _ _ hargs =>
    cases hm with
    | prop hw' =>
      rw [printLiteral_rel, applied_append] at h
      exact absurd (word_cancel hw (breaks_parenthesis _) hw' hs.breaks h).2.symm (hs.no_arguments _)
    | rel hw' _ _ hargs' =>
      rw [printLiteral_rel, printLiteral_rel] at h
      obtain ⟨rfl, rfl, hrest⟩ := applied_terms_cancel hw hw' hargs hargs' h
      exact ⟨rfl, hrest⟩

/-! ## Literals -/

theorem printLiteral_neg (body : Node) (r : List Char) :
    (neg body).printLiteral.toList ++ r = "not".toList ++ ' ' :: (body.printLiteral.toList ++ r) := by
  rw [printLiteral, String.toList_append, List.append_assoc]
  rfl

theorem printLiteral_disj (ds : List Node) :
    (disj ds).printLiteral = applied "or" (ds.map printLiteral) := by
  rw [printLiteral, printLiterals_eq_map]

theorem printLiteral_distinct (left right : Node) :
    (distinct left right).printLiteral = applied "distinct" ([left, right].map printTerm) := by
  rw [printLiteral]
  rfl

theorem IsAtom.beginsWord {n : Node} (h : IsAtom n) : BeginsWord n.printLiteral.toList := by
  cases h with
  | prop hw => exact hw.beginsWord
  | rel hw _ _ _ =>
    rw [printLiteral_rel]
    exact beginsWord_applied printTerm hw _

theorem IsLiteral.beginsWord {l : Node} (h : IsLiteral l) : BeginsWord l.printLiteral.toList := by
  cases h with
  | atom ha => exact ha.beginsWord
  | @neg body _ =>
    have hneg := printLiteral_neg body []
    rw [List.append_nil] at hneg
    rw [hneg]
    exact ⟨_, _, rfl, by decide⟩
  | disj _ =>
    rw [printLiteral_disj]
    exact beginsWord_applied printLiteral (by decide) _
  | distinct _ _ =>
    rw [printLiteral_distinct]
    exact beginsWord_applied printTerm (by decide) _

/-- The kind of a literal, read off a text that begins with it. A blank stands behind the word of a
negation, and behind the last literal of a statement, where a full stop comes next. -/
def literalKind (text : List Char) : String :=
  match behindWord text with
  | '(' :: _ =>
    if firstWord text = "or".toList then "Or"
    else if firstWord text = "distinct".toList then "Distinct"
    else "Relation"
  | ' ' :: '.' :: _ => "Proposition"
  | ' ' :: _ => "Not"
  | _ => "Proposition"

theorem literalKind_applied (print : Node → String) {name : String} (hn : IsWord name) (ns : List Node)
    (r : List Char) :
    literalKind ((applied name (ns.map print)).toList ++ r) =
      if name = "or" then "Or" else if name = "distinct" then "Distinct" else "Relation" := by
  unfold literalKind
  rw [applied_append, behindWord_append hn (breaks_parenthesis _),
    firstWord_append hn (breaks_parenthesis _)]
  simp only [String.toList_inj]

theorem literalKind_printLiteral {l : Node} (h : IsLiteral l) {r : List Char} (hr : Follows r) :
    literalKind (l.printLiteral.toList ++ r) = l.kind := by
  cases h with
  | atom ha =>
    cases ha with
    | @prop name hw =>
      unfold literalKind
      rw [printLiteral, behindWord_append hw hr.breaks]
      cases hr <;> rfl
    | rel hw hor hdistinct _ =>
      rw [printLiteral_rel, literalKind_applied printTerm hw, if_neg hor, if_neg hdistinct]
      rfl
  | @neg body hb =>
    obtain ⟨c, rest, hc, hword⟩ := hb.beginsWord.append r
    have hbreaks : Breaks (' ' :: (body.printLiteral.toList ++ r)) := ⟨_, _, rfl, by decide⟩
    -- only this tells a negation from a proposition that is called like one
    have hstop : c ≠ '.' := by
      rintro rfl
      exact hword (by decide)
    unfold literalKind
    rw [printLiteral_neg, behindWord_append (by decide) hbreaks, hc]
    simp [hstop, kind]
  | disj _ =>
    rw [printLiteral_disj, literalKind_applied printLiteral (by decide)]
    rfl
  | distinct _ _ =>
    rw [printLiteral_distinct, literalKind_applied printTerm (by decide)]
    rfl

theorem IsLiteral.kind_eq {l k : Node} (hl : IsLiteral l) (hk : IsLiteral k) {r s : List Char}
    (hr : Follows r) (hs : Follows s)
    (h : l.printLiteral.toList ++ r = k.printLiteral.toList ++ s) : l.kind = k.kind := by
  rw [← literalKind_printLiteral hl hr, h, literalKind_printLiteral hk hs]

theorem IsLiteral.cancels {l k : Node} (hl : IsLiteral l) (hk : IsLiteral k) :
    Cancels printLiteral l k := by
  induction hl generalizing k with
  | atom ha =>
    -- a word alone and a word with arguments are told apart in the same way as in heads
    intro r s hr hs h
    have hkind := (IsLiteral.atom ha).kind_eq hk hr hs h
    cases hk with
    | atom ha' => exact ha.cancel ha' hr.endsAtom hs.endsAtom h
    | _ => cases ha <;> simp [kind] at hkind
  | neg hb ih =>
    intro r s hr hs h
    have hkind := hb.neg.kind_eq hk hr hs h
    cases hk with
    | atom ha' => cases ha' <;> simp [kind] at hkind
    | neg hb' =>
      rw [printLiteral_neg, printLiteral_neg, List.append_right_inj, List.cons.injEq] at h
      obtain ⟨rfl, hrest⟩ := ih hb' r s hr hs h.2
      exact ⟨rfl, hrest⟩
    | _ => simp [kind] at hkind
  | disj hds ih =>
    intro r s hr hs h
    have hkind := (IsLiteral.disj hds).kind_eq hk hr hs h
    cases hk with
    | atom ha' => cases ha' <;> simp [kind] at hkind
    | disj hds' =>
      rw [printLiteral_disj, printLiteral_disj] at h
      obtain ⟨-, rfl, hrest⟩ := applied_cancel (by decide) (by decide)
        (fun d hd => (hds d hd).beginsWord) (fun d hd => (hds' d hd).beginsWord)
        (fun d hd d' hd' => ih d hd (hds' d' hd')) h
      exact ⟨rfl, hrest⟩
    | _ => simp [kind] at hkind
  | distinct hleft hright =>
    intro r s hr hs h
    have hkind := (IsLiteral.distinct hleft hright).kind_eq hk hr hs h
    cases hk with
    | atom ha' => cases ha' <;> simp [kind] at hkind
    | distinct hleft' hright' =>
      rw [printLiteral_distinct, printLiteral_distinct] at h
      obtain ⟨-, hsides, hrest⟩ := applied_terms_cancel (by decide) (by decide)
        (by simp [hleft, hright]) (by simp [hleft', hright']) h
      cases hsides
      exact ⟨rfl, hrest⟩
    | _ => simp [kind] at hkind

/-! ## Statements -/

theorem printItem_atom {n : Node} (h : IsAtom n) (r : List Char) :
    n.printItem.toList ++ r = n.printLiteral.toList ++ ' ' :: '.' :: r := by
  cases h <;> simp [printItem]

/-- What stands behind the turnstile of a rule. -/
def bodyText (body : List Node) (r : List Char) : List Char :=
  match body with
  | [] => '.' :: r
  | l :: ls => listed printLiteral (l :: ls) ++ ' ' :: '.' :: r

theorem printItem_rule (head : Node) (body : List Node) (r : List Char) :
    (rule head body).printItem.toList ++ r =
      head.printLiteral.toList ++ ' ' :: ':' :: '-' :: ' ' :: bodyText body r := by
  cases body <;> simp [printItem, Rule.print, bodyText, listed, Function.comp_def]

theorem bodyText_cancel {body body' : List Node} (hb : ∀ l ∈ body, IsLiteral l)
    (hb' : ∀ l ∈ body', IsLiteral l) {r s : List Char} (h : bodyText body r = bodyText body' s) :
    body = body' ∧ r = s := by
  cases body with
  | nil =>
    cases body' with
    | nil => exact ⟨rfl, (List.cons.inj h).2⟩
    | cons l ls =>
      -- no literal begins with the full stop of an empty body
      have hbreaks : Breaks (bodyText (l :: ls) s) := h ▸ ⟨_, _, rfl, by decide⟩
      exact absurd hbreaks (not_breaks_listed (hb' l (by simp)).beginsWord ls _)
  | cons l ls =>
    cases body' with
    | nil =>
      have hbreaks : Breaks (bodyText (l :: ls) r) := h ▸ ⟨_, _, rfl, by decide⟩
      exact absurd hbreaks (not_breaks_listed (hb l (by simp)).beginsWord ls _)
    | cons k ks =>
      obtain ⟨hbody, hrest⟩ := listed_cancel (fun l hl => (hb l hl).beginsWord)
        (fun k hk => (hb' k hk).beginsWord) (fun l hl k hk => (hb l hl).cancels (hb' k hk)) (.stop r)
        (.stop s) h
      exact ⟨hbody, (List.cons.inj (List.cons.inj hrest).2).2⟩

theorem endsAtom_blank (r : List Char) : EndsAtom (' ' :: r) :=
  ⟨⟨_, _, rfl, by decide⟩, by simp⟩

/-- Statements end by themselves: whatever stands behind them, they cancel. -/
theorem IsStatement.cancel {n m : Node} (hn : IsStatement n) (hm : IsStatement m) {r s : List Char}
    (h : n.printItem.toList ++ r = m.printItem.toList ++ s) : n = m ∧ r = s := by
  cases hn with
  | atom ha =>
    cases hm with
    | atom ha' =>
      rw [printItem_atom ha, printItem_atom ha'] at h
      obtain ⟨rfl, hrest⟩ := ha.cancel ha' (endsAtom_blank _) (endsAtom_blank _) h
      exact ⟨rfl, by simpa using hrest⟩
    | rule hh' _ =>
      rw [printItem_atom ha, printItem_rule] at h
      obtain ⟨-, hrest⟩ := ha.cancel hh' (endsAtom_blank _) (endsAtom_blank _) h
      simp at hrest
  | rule hh hb =>
    cases hm with
    | atom ha' =>
      rw [printItem_atom ha', printItem_rule] at h
      obtain ⟨-, hrest⟩ := hh.cancel ha' (endsAtom_blank _) (endsAtom_blank _) h
      simp at hrest
    | rule hh' hb' =>
      rw [printItem_rule, printItem_rule] at h
      obtain ⟨rfl, hbody⟩ := hh.cancel hh' (endsAtom_blank _) (endsAtom_blank _) h
      simp only [List.cons.injEq, true_and] at hbody
      obtain ⟨rfl, hrest⟩ := bodyText_cancel hb hb' hbody
      exact ⟨rfl, hrest⟩

/-! ## Descriptions -/

/-- What stands behind the first statement of a description. -/
def nextLines (items : List Node) : List Char :=
  match items with
  | [] => []
  | n :: items => '\n' :: (printItems (n :: items)).toList

theorem printItems_cons (n : Node) (items : List Node) :
    (printItems (n :: items)).toList = n.printItem.toList ++ nextLines items := by
  cases items <;> simp [printItems, nextLines]

theorem nextLines_cancel {items items' : List Node} (h : nextLines items = nextLines items') :
    printItems items = printItems items' := by
  cases items with
  | nil =>
    cases items' with
    | nil => rfl
    | cons m items' => cases h
  | cons n items =>
    cases items' with
    | nil => cases h
    | cons m items' => exact String.toList_inj.1 (List.cons.inj h).2

/-- Only the empty description is printed as nothing. -/
theorem IsStatement.printItems_ne {n : Node} (h : IsStatement n) (items : List Node) :
    printItems (n :: items) ≠ printItems [] := by
  intro heq
  have htext := congrArg String.toList heq
  rw [printItems_cons] at htext
  have hnil : n.printItem.toList = [] := (List.append_eq_nil_iff.1 htext).1
  cases h with
  | atom ha =>
    have hitem := printItem_atom ha []
    simp [hnil] at hitem
  | @rule head body _ _ =>
    have hitem := printItem_rule head body []
    simp [hnil] at hitem

end Node

open Node

/-- Descriptions that are built from words are printed alike only if they are the same. -/
theorem printItems_unambiguous (items items' : List Node) (h : ∀ n ∈ items, IsStatement n)
    (h' : ∀ n ∈ items', IsStatement n) : printItems items = printItems items' ↔ items = items' := by
  refine ⟨fun heq => ?_, fun heq => heq ▸ rfl⟩
  induction items generalizing items' with
  | nil =>
    cases items' with
    | nil => rfl
    | cons m items' => exact absurd heq.symm ((h' m (by simp)).printItems_ne items')
  | cons n items ih =>
    cases items' with
    | nil => exact absurd heq ((h n (by simp)).printItems_ne items)
    | cons m items' =>
      have htext := congrArg String.toList heq
      rw [printItems_cons, printItems_cons] at htext
      obtain ⟨rfl, hrest⟩ := (h n (by simp)).cancel (h' m (by simp)) htext
      rw [ih items' (fun n hn => h n (by simp [hn])) (fun m hm => h' m (by simp [hm]))
        (nextLines_cancel hrest)]

/-- A relation by the name of disjunctions would be taken for one. -/
example : printItems [.rule (.prop "q") [.rel "or" [.const "p"]]] =
    printItems [.rule (.prop "q") [.disj [.prop "p"]]] := by
  decide

/-- Printed as `p() :- not not, or() .` and `:- .` -/
def commaGame : List Node :=
  [.rule (.rel "p" []) [.neg (.prop "not"), .disj []], .prop ":-"]

/-- Printed as `p() :- not not or(p) .` and `:- .` -/
def doubleGame : List Node :=
  [.rule (.rel "p" []) [.neg (.neg (.disj [.prop "p"]))], .prop ":-"]

/-- A proposition may have the word for negation as its name and is still told apart from one. -/
theorem commaGame_ne_doubleGame : printItems commaGame ≠ printItems doubleGame := by
  have hprop : ∀ name, IsWord name → Node.IsAtom (.prop name) := fun _ => .prop
  have hp : Node.IsAtom (.rel "p" []) := .rel (by decide) (by decide) (by decide) (by simp)
  have hcomma : ∀ n ∈ commaGame, IsStatement n := by
    simp only [commaGame, List.mem_cons, List.not_mem_nil, or_false, forall_eq_or_imp, forall_eq]
    refine ⟨.rule hp ?_, .atom (hprop ":-" (by decide))⟩
    simp only [List.mem_cons, List.not_mem_nil, or_false, forall_eq_or_imp, forall_eq]
    exact ⟨.neg (.atom (hprop "not" (by decide))), .disj (by simp)⟩
  have hdouble : ∀ n ∈ doubleGame, IsStatement n := by
    simp only [doubleGame, List.mem_cons, List.not_mem_nil, or_false, forall_eq_or_imp, forall_eq]
    refine ⟨.rule hp ?_, .atom (hprop ":-" (by decide))⟩
    simp only [List.mem_cons, List.not_mem_nil, or_false, forall_eq]
    exact .neg (.neg (.disj (by simpa using .atom (hprop "p" (by decide)))))
  intro heq
  cases (printItems_unambiguous commaGame doubleGame hcomma hdouble).1 heq

end GameRules
