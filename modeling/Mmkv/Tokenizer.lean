import Mmkv.CStrings
import Mathlib.Data.List.TakeWhile

/-!
# The tokens of a line

`Tokenizer` walks over a text by two positions, the start of the token and the place
of the delimiter behind it.  Its iterator goes through the words of the text, which are
the pieces between delimiters that are not empty, and stays behind the last one.
-/

namespace Mmkv

open List Nat

/-! ## Words -/

section Words

variable {α : Type} [DecidableEq α]

def words (sep : α) (text : List α) : List (List α) :=
  (text.splitOn sep).filter (· ≠ [])

variable {sep : α} {w : List α} {runs : List (List α)} {text : List α}

@[simp]
theorem words_nil : words sep [] = [] := rfl

theorem words_sep_cons (text : List α) : words sep (sep :: text) = words sep text := by
  rw [words, List.splitOn, splitOnP_cons_eq_if_modifyHead, if_pos (by simp)]
  rfl

theorem words_of_all_sep {l : List α} (hl : ∀ b ∈ l, b = sep) (text : List α) :
    words sep (l ++ text) = words sep text := by
  induction l with
  | nil => rfl
  | cons b l ih =>
    have hb : b = sep := hl b (by simp)
    rw [cons_append, hb, words_sep_cons]
    exact ih fun c hc => hl c (by simp [hc])

theorem words_word (hne : w ≠ []) (hw : sep ∉ w) : words sep w = [w] := by
  simp [words, splitOn_eq_singleton hw, hne]

theorem words_word_sep (hne : w ≠ []) (hw : sep ∉ w) (text : List α) :
    words sep (w ++ sep :: text) = w :: words sep text := by
  simp [words, splitOn_append_cons_self_of_not_mem hw, hne]

theorem length_words_le (sep : α) (text : List α) : (words sep text).length ≤ text.length := by
  induction text with
  | nil => simp
  | cons b text ih =>
    by_cases hb : b = sep
    · rw [hb, words_sep_cons]
      exact le_succ_of_le ih
    · unfold words List.splitOn at ih ⊢
      rw [splitOnP_cons_eq_if_modifyHead, if_neg (by simpa using hb)]
      -- the piece that `b` is put in front of counts once, whether it was empty or not
      cases hsplit : text.splitOnP (· == sep) with
      | nil => exact absurd hsplit (splitOnP_ne_nil _ _)
      | cons piece pieces =>
        have hle : (pieces.filter (· ≠ [])).length ≤
            ((piece :: pieces).filter (· ≠ [])).length :=
          ((sublist_cons_self piece pieces).filter _).length_le
        simp only [modifyHead_cons, length_cons, ne_eq, reduceCtorEq,
          not_false_eq_true, decide_true, filter_cons_of_pos]
        grind

/-- A text and its maximal runs of elements other than the separator. -/
inductive MaximalRuns (sep : α) : List α → List (List α) → Prop
  | nil : MaximalRuns sep [] []
  | skip {text : List α} {runs : List (List α)} (h : MaximalRuns sep text runs) :
      MaximalRuns sep (sep :: text) runs
  | run {run rest : List α} {runs : List (List α)} (ne : run ≠ []) (free : sep ∉ run)
      (maximal : ∀ b ∈ rest.head?, b = sep) (h : MaximalRuns sep rest runs) :
      MaximalRuns sep (run ++ rest) (run :: runs)

theorem MaximalRuns.eq_words (h : MaximalRuns sep text runs) : runs = words sep text := by
  induction h with
  | nil => rfl
  | skip _ ih => rw [ih, words_sep_cons]
  | @run run rest runs ne free maximal _ ih =>
    cases rest with
    | nil => rw [append_nil, words_word ne free, ih, words_nil]
    | cons b rest =>
      obtain rfl := maximal b rfl
      rw [words_word_sep ne free, ih, words_sep_cons]

theorem maximalRuns_words (sep : α) : ∀ text : List α, MaximalRuns sep text (words sep text)
  | [] => .nil
  | b :: text => by
    by_cases hb : b = sep
    · subst hb
      rw [words_sep_cons]
      exact .skip (maximalRuns_words b text)
    · have hsplit : (b :: text.takeWhile (· ≠ sep)) ++ text.dropWhile (· ≠ sep) = b :: text := by
        rw [cons_append, takeWhile_append_dropWhile]
      have hrest := maximalRuns_words sep (text.dropWhile (· ≠ sep))
      have hrun := MaximalRuns.run (cons_ne_nil b (text.takeWhile (· ≠ sep))) ?_ ?_ hrest
      · rw [hsplit] at hrun
        rwa [← hrun.eq_words]
      · simp only [mem_cons, not_or]
        exact ⟨Ne.symm hb, fun hmem => by simpa using mem_takeWhile_imp hmem⟩
      · intro c hc
        have hnot := head?_dropWhile_not (· ≠ sep) text
        rw [hc] at hnot
        simpa using hnot
termination_by text => text.length
decreasing_by
  · simp
  · exact lt_succ_of_le (length_dropWhile_le _ _)

theorem maximalRuns_iff :
    MaximalRuns sep text runs ↔ runs = words sep text := by
  refine ⟨MaximalRuns.eq_words, ?_⟩
  rintro rfl
  exact maximalRuns_words sep text

end Words

/-! ## Positions in a text -/

/-- `npos` is no position. -/
abbrev Position : Type :=
  Option Nat

/-- The position behind another one; the one behind `npos` is the first. -/
def Position.next : Position → Nat
  | none => 0
  | some p => p + 1

namespace StringView

def findFirstNotOf (text : Str) (c : UInt8) (pos : Nat) : Position :=
  ((text.drop pos).findIdx? (· ≠ c)).map (pos + ·)

def find (text : Str) (c : UInt8) (pos : Nat) : Position :=
  ((text.drop pos).findIdx? (· = c)).map (pos + ·)

/-- `substr_range`, up to the end of the text if there is no second position. -/
def substrRange (text : Str) (start : Nat) : Position → Str
  | none => text.drop start
  | some stop => (text.drop start).take (stop - start)

end StringView

open StringView

/-! ## The tokenizer -/

structure Tokenizer where
  text : Str
  deli : UInt8

structure TokenizerIterator where
  tokenizer : Tokenizer
  start : Position
  stop : Position

namespace TokenizerIterator

/-- Iterators are compared by their starts, and `end()` starts at `npos`. -/
def atEnd (it : TokenizerIterator) : Bool :=
  it.start.isNone

/-- `operator*`; there is no token behind the last one. -/
def value (it : TokenizerIterator) : Option Str :=
  it.start.map fun start => substrRange it.tokenizer.text start it.stop

def increment (it : TokenizerIterator) : TokenizerIterator :=
  let start := it.stop.bind fun stop =>
    findFirstNotOf it.tokenizer.text it.tokenizer.deli (stop + 1)
  let stop := start.bind fun start =>
    find it.tokenizer.text it.tokenizer.deli (start + 1)
  { it with start, stop }

/-- The tokens that a loop comes by from here to `end()`, in at most `fuel` tests. -/
def iterate : Nat → TokenizerIterator → Option (List Str)
  | 0, _ => none
  | fuel + 1, it =>
    if it.atEnd then some []
    else do
      let t ← it.value
      let ts ← iterate fuel it.increment
      return t :: ts

end TokenizerIterator

open TokenizerIterator

def Tokenizer.begin (t : Tokenizer) : TokenizerIterator :=
  let start := findFirstNotOf t.text 32 0
  ⟨t, start, find t.text t.deli start.next⟩

/-! ## The iterator goes through the words -/

namespace TokenizerIterator

inductive Reads : TokenizerIterator → List Str → Prop
  | nil {it : TokenizerIterator} (hend : it.start = none) (hstay : it.increment.start = none) :
      Reads it []
  | cons {it : TokenizerIterator} {t : Str} {ts : List Str} (hvalue : it.value = some t)
      (hrest : Reads it.increment ts) : Reads it (t :: ts)

variable {it : TokenizerIterator} {t : Str} {ts : List Str}

theorem increment_stays (hend : it.increment.start = none) :
    it.increment.increment.start = none := by
  have hstop : it.increment.stop = none := by
    unfold increment at hend ⊢
    grind
  rw [increment, hstop, Option.bind_none]

theorem Reads.atEnd (h : Reads it ts) : it.atEnd = ts.isEmpty := by
  cases h with
  | nil hend _ => rw [atEnd, hend]; rfl
  | cons hvalue _ =>
    cases hstart : it.start with
    | none => simp [value, hstart] at hvalue
    | some p => rw [atEnd, hstart]; rfl

theorem Reads.value (h : Reads it (t :: ts)) : it.value = some t := by
  cases h with
  | cons hvalue _ => exact hvalue

theorem Reads.increment (h : Reads it ts) : Reads it.increment ts.tail := by
  cases h with
  | nil _ hstay => exact .nil hstay (increment_stays hstay)
  | cons _ hrest => exact hrest

end TokenizerIterator

theorem findIdx_split {l : Str} {p : UInt8 → Bool} {i : Nat} (h : l.findIdx? p = some i) :
    ∃ before b behind, l = before ++ b :: behind ∧ before.length = i ∧ p b = true ∧
      ∀ c ∈ before, p c = false := by
  obtain ⟨hlt, hb, hbefore⟩ := List.findIdx?_eq_some_iff_getElem.mp h
  refine ⟨l.take i, l[i], l.drop (i + 1), ?_, by simp; omega, hb, ?_⟩
  · rw [← drop_eq_getElem_cons hlt, take_append_drop]
  · intro c hc
    obtain ⟨j, hj, rfl⟩ := mem_take_iff_getElem.mp hc
    simpa using hbefore j (by omega)

theorem drop_behind {l before behind : Str} {b : UInt8} {pos : Nat}
    (h : l.drop pos = before ++ b :: behind) :
    l.drop (pos + before.length) = b :: behind ∧
      l.drop (pos + before.length + 1) = behind := by
  have hdrop : l.drop (pos + before.length) = b :: behind := by
    rw [← drop_drop, h, drop_left]
  refine ⟨hdrop, ?_⟩
  rw [← drop_drop, hdrop]
  rfl

/-- What is found by the two searches for a token from `pos` on. -/
inductive Scan (text : Str) (sep : UInt8) (pos : Nat) : Position → Prop
  | blank (hblank : ∀ b ∈ text.drop pos, b = sep) (hwords : words sep (text.drop pos) = []) :
      Scan text sep pos none
  | last {start : Nat} (hlt : start < text.length)
      (hstop : find text sep (start + 1) = none) (hfree : sep ∉ text.drop start)
      (hwords : words sep (text.drop pos) = [text.drop start]) : Scan text sep pos (some start)
  | word {start stop : Nat} (hle : pos ≤ start) (hlt : start < stop) (hlength : stop < text.length)
      (hstop : find text sep (start + 1) = some stop)
      (hsep : text.drop stop = sep :: text.drop (stop + 1))
      (hwords : words sep (text.drop pos) =
        (text.drop start).take (stop - start) :: words sep (text.drop (stop + 1))) :
      Scan text sep pos (some start)

theorem scan (text : Str) (sep : UInt8) (pos : Nat) :
    Scan text sep pos (findFirstNotOf text sep pos) := by
  unfold findFirstNotOf
  cases hfirst : (text.drop pos).findIdx? (· ≠ sep) with
  | none =>
    have hall : ∀ b ∈ text.drop pos, b = sep := by
      simpa using List.findIdx?_eq_none_iff.mp hfirst
    refine .blank hall ?_
    rw [← append_nil (text.drop pos), words_of_all_sep hall, words_nil]
  | some i =>
    obtain ⟨blanks, b, rest, htext, rfl, hb, hblanks⟩ := findIdx_split hfirst
    obtain ⟨hfrom, hbehind⟩ := drop_behind htext
    have hwords : words sep (text.drop pos) = words sep (b :: rest) := by
      rw [htext, words_of_all_sep (by simpa using hblanks)]
    cases hnext : rest.findIdx? (· = sep) with
    | none =>
      -- the token reaches to the end of the text
      have hfree : sep ∉ b :: rest := by grind
      refine .last ?_ ?_ (hfrom ▸ hfree) ?_
      · rw [← not_le, ← drop_eq_nil_iff, hfrom]
        simp
      · rw [find, hbehind, hnext]
        rfl
      · rw [hwords, words_word (by simp) hfree, hfrom]
    | some j =>
      obtain ⟨word, sep', behind, hrest, rfl, hsep', hword⟩ := findIdx_split hnext
      obtain rfl : sep' = sep := by simpa using hsep'
      have hfree : sep' ∉ b :: word := by grind
      obtain ⟨hstop, hdrop⟩ := drop_behind (hbehind.trans hrest)
      refine .word (le_add_right _ _) ?_ ?_ ?_ (hstop.trans (congrArg _ hdrop.symm)) ?_
      · exact lt_of_lt_of_le (lt_succ_self _) (le_add_right _ word.length)
      · rw [← not_le, ← drop_eq_nil_iff, hstop]
        simp
      · rw [find, hbehind, hnext]
        rfl
      · have htake : pos + blanks.length + 1 + word.length - (pos + blanks.length) =
            (b :: word).length := by
          rw [length_cons]
          omega
        rw [hwords, hrest, ← cons_append, words_word_sep (by simp) hfree, hdrop, hfrom, hrest,
          ← cons_append, htake, take_left]

/-- The iterator that has looked for a token from `pos` on has the words from there on
before it. -/
theorem TokenizerIterator.reads_from {text : Str} {sep : UInt8} (pos : Nat)
    {it : TokenizerIterator} (htok : it.tokenizer = ⟨text, sep⟩)
    (hstart : it.start = findFirstNotOf text sep pos)
    (hstop : ∀ p, it.start = some p → it.stop = find text sep (p + 1))
    (hstay : it.start = none → it.increment.start = none) :
    it.Reads (words sep (text.drop pos)) := by
  have hscan := scan text sep pos
  rw [← hstart] at hscan
  cases hsome : it.start with
  | none =>
    rw [hsome] at hscan
    cases hscan with
    | blank _ hwords =>
      rw [hwords]
      exact .nil hsome (hstay hsome)
  | some start =>
    have hstop := hstop start hsome
    rw [hsome] at hscan
    cases hscan with
    | last hlt hnone hfree hwords =>
      rw [hnone] at hstop
      have hend : it.increment.start = none := by simp [increment, hstop]
      rw [hwords]
      refine .cons ?_ (.nil hend (increment_stays hend))
      simp [value, hsome, htok, hstop, substrRange]
    | @word _ stop hle hlt hlength hfind hsep hwords =>
      rw [hfind] at hstop
      rw [hwords]
      refine .cons ?_ ?_
      · simp [value, hsome, htok, hstop, substrRange]
      · refine reads_from (stop + 1) htok ?_ ?_ increment_stays
        · simp [increment, hstop, htok]
        · intro p hp
          have hp' := hp
          unfold increment at hp' ⊢
          grind
termination_by text.length - pos
decreasing_by
  omega

theorem StringView.findFirstNotOf_none {text : Str} {c : UInt8}
    (h : findFirstNotOf text c 0 = none) (pos : Nat) :
    findFirstNotOf text c pos = none := by
  simp only [findFirstNotOf, Option.map_eq_none_iff, List.findIdx?_eq_none_iff, drop_zero] at h ⊢
  exact fun b hb => h b (mem_of_mem_drop hb)

theorem Tokenizer.begin_reads (text : Str) :
    (Tokenizer.begin ⟨text, 32⟩).Reads (words 32 text) := by
  refine reads_from 0 rfl rfl ?_ ?_
  · intro p hp
    simp only [Tokenizer.begin] at hp ⊢
    rw [hp]
    rfl
  · intro hblank
    cases hstop : find text 32 0 <;>
      simp [increment, Tokenizer.begin, Position.next,
        findFirstNotOf_none hblank, hstop]

theorem TokenizerIterator.Reads.iterate {it : TokenizerIterator} {ts : List Str} (h : it.Reads ts)
    {fuel : Nat} (hfuel : ts.length < fuel) : it.iterate fuel = some ts := by
  induction ts generalizing it fuel with
  | nil =>
    obtain ⟨fuel, rfl⟩ := exists_eq_add_one_of_ne_zero (ne_of_gt hfuel)
    rw [TokenizerIterator.iterate, h.atEnd]
    rfl
  | cons t ts ih =>
    obtain ⟨fuel, rfl⟩ := exists_eq_add_one_of_ne_zero (by omega : fuel ≠ 0)
    rw [TokenizerIterator.iterate, h.atEnd, h.value, if_neg (by simp)]
    have hrest := ih h.increment (by simpa using hfuel)
    simp [hrest]

/-- The loop over the tokens of a line ends, and its tokens are the maximal runs of bytes
other than the space. -/
theorem Tokenizer.iterate_maximalRuns (text : Str) :
    ∃ ts, (∀ fuel > text.length, (Tokenizer.begin ⟨text, 32⟩).iterate fuel = some ts) ∧
      (∀ runs, MaximalRuns 32 text runs ↔ runs = ts) ∧ [] ∉ ts := by
  refine ⟨words 32 text, fun fuel hfuel => ?_, fun runs => maximalRuns_iff, by simp [words]⟩
  exact (Tokenizer.begin_reads text).iterate
    (lt_of_le_of_lt (length_words_le 32 text) hfuel)

end Mmkv
