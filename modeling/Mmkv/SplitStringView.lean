import Mmkv.Tokenizer
import Mathlib.Algebra.Group.Nat.Defs
import Mathlib.Data.List.Infix

/-!
# Splitting a text

`SplitStringView` looks for tokens from the end of the last one on.  The end is `npos`
behind a token without a separator, and then the search begins at the first byte again.
-/

namespace Mmkv

open List StringView

/-! ## The function -/

namespace StringView

def findFirstNotOfAny (text set : Str) (pos : Nat) : Position :=
  ((text.drop pos).findIdx? (· ∉ set)).map (pos + ·)

def findText (text s : Str) (pos : Nat) : Position :=
  ((text.drop pos).tails.findIdx? s.isPrefixOf).map (pos + ·)

end StringView

/-- `StringView(str.data() + start, size)`. -/
structure TextView where
  start : Nat
  size : Nat

namespace TextView

/-- `npos` is the largest word. -/
def upTo (start : Nat) : Position → TextView
  | some stop => ⟨start, stop - start⟩
  | none => ⟨start, 2 ^ 64 - 1 - start⟩

def read (text : Str) (v : TextView) : Str :=
  (text.drop v.start).take v.size

end TextView

/-- The loop, which is entered with the end of the last token. -/
def splitLoop (str sp : Str) : Nat → Position → List TextView → Option (List TextView)
  | 0, _, _ => none
  | fuel + 1, stop, ret =>
    match findFirstNotOfAny str sp stop.next with
    | none => some ret
    | some beg =>
      let stop := findText str sp (beg + 1)
      splitLoop str sp fuel stop (ret ++ [.upTo beg stop])

def splitStringView (str sp : Str) (fuel : Nat) : Option (List TextView) :=
  splitLoop str sp fuel none []

/-! ## A separator of one byte -/

section OneByte

variable {text : Str} {sep : UInt8} {b : UInt8}

theorem StringView.findFirstNotOfAny_single (text : Str) (sep : UInt8) :
    findFirstNotOfAny text [sep] = findFirstNotOf text sep := by
  simp [funext_iff, findFirstNotOfAny, findFirstNotOf]

theorem StringView.findText_single (text : Str) (sep : UInt8) :
    findText text [sep] = find text sep := by
  have htails : ∀ l : Str, l.tails.findIdx? [sep].isPrefixOf = l.findIdx? (· = sep) := by
    intro l
    induction l with
    | nil => rfl
    | cons b l ih =>
      by_cases hb : sep = b
      · simp [tails, findIdx?_cons, hb]
      · simp [tails, findIdx?_cons, ih, hb, Ne.symm hb]
  funext pos
  rw [findText, htails, find]

theorem splitLoop_step (fuel : Nat) (stop : Position) (ret : List TextView) :
    splitLoop text [sep] (fuel + 1) stop ret =
      match findFirstNotOf text sep stop.next with
      | none => some ret
      | some beg => splitLoop text [sep] fuel (find text sep (beg + 1))
          (ret ++ [.upTo beg (find text sep (beg + 1))]) := by
  rw [splitLoop, findFirstNotOfAny_single, findText_single]

theorem mem_drop_of_getLast? (hlast : text.getLast? = some b) {pos : Nat}
    (hpos : pos < text.length) : b ∈ text.drop pos := by
  apply mem_of_getLast?
  rw [getLast?_drop, if_neg (Nat.not_le.2 hpos), hlast]

/-- If the text ends with the separator, every token has an end. -/
theorem splitLoop_words (hlast : ∀ b ∈ text.getLast?, b = sep) (stop : Position) :
    ∃ views, (∀ fuel > text.length - stop.next, ∀ ret,
        splitLoop text [sep] fuel stop ret = some (ret ++ views)) ∧
      views.map (TextView.read text) = words sep (text.drop stop.next) := by
  have hscan := scan text sep stop.next
  generalize hfirst : findFirstNotOf text sep stop.next = found at hscan
  cases hscan with
  | blank _ hwords =>
    refine ⟨[], fun fuel hfuel ret => ?_, hwords.symm⟩
    obtain ⟨fuel, rfl⟩ := Nat.exists_eq_add_one_of_ne_zero (Nat.ne_zero_of_lt hfuel)
    rw [splitLoop_step, hfirst, append_nil]
  | last hlt _ hfree _ =>
    have hb := getLast?_eq_some_getLast (ne_nil_of_length_pos (Nat.zero_lt_of_lt hlt))
    have hmem := mem_drop_of_getLast? hb hlt
    rw [hlast _ hb] at hmem
    exact absurd hmem hfree
  | @word start stop' hle hlt hlength hfind _ hwords =>
    obtain ⟨views, hrun, hviews⟩ := splitLoop_words hlast (some stop')
    refine ⟨.upTo start (some stop') :: views, fun fuel hfuel ret => ?_, ?_⟩
    · obtain ⟨fuel, rfl⟩ := Nat.exists_eq_add_one_of_ne_zero (Nat.ne_zero_of_lt hfuel)
      rw [splitLoop_step, hfirst]
      simp only [hfind]
      rw [hrun fuel (by rw [Position.next]; omega), append_assoc]
      rfl
    · rw [map_cons, hviews, hwords]
      rfl
termination_by text.length - stop.next
decreasing_by
  rw [Position.next]
  omega

/-- If it ends with another byte, the loop is never left. -/
theorem splitLoop_unfinished (hlast : text.getLast? = some b) (hb : b ≠ sep)
    (fuel : Nat) (stop : Position) (hstop : stop.next < text.length) (ret : List TextView) :
    splitLoop text [sep] fuel stop ret = none := by
  induction fuel generalizing stop ret with
  | zero => rfl
  | succ fuel ih =>
    have hscan := scan text sep stop.next
    rw [splitLoop_step]
    generalize findFirstNotOf text sep stop.next = found at hscan ⊢
    cases hscan with
    | blank hblank _ => exact absurd (hblank b (mem_drop_of_getLast? hlast hstop)) hb
    | last hlt hfind _ _ =>
      simp only [hfind]
      exact ih none (Nat.zero_lt_of_lt hlt) _
    | @word _ stop' _ _ hlength hfind hsep _ =>
      simp only [hfind]
      refine ih (some stop') (Nat.not_le.1 fun (hle : text.length ≤ stop' + 1) => ?_) _
      -- the separator would be the last byte
      have hmem := mem_drop_of_getLast? hlast hlength
      rw [hsep, drop_eq_nil_of_le hle] at hmem
      exact hb (mem_singleton.1 hmem)

end OneByte

/-- For a separator of one byte, the function comes back with the maximal runs of other bytes
if and only if the text is empty or ends with the separator. -/
theorem splitStringView_iff (text : Str) (sep : UInt8) :
    (∃ views, (∀ fuel > text.length, splitStringView text [sep] fuel = some views) ∧
      MaximalRuns sep text (views.map (TextView.read text))) ↔
    ∀ b ∈ text.getLast?, b = sep := by
  constructor
  · rintro ⟨views, hrun, -⟩ b hb
    by_contra hne
    have hpos : 0 < text.length := length_pos_of_mem (mem_of_getLast? hb)
    have hnone : splitStringView text [sep] (text.length + 1) = none :=
      splitLoop_unfinished hb hne _ none hpos []
    exact nomatch (hrun _ (Nat.lt_succ_self _)).symm.trans hnone
  · intro hlast
    obtain ⟨views, hrun, hviews⟩ := splitLoop_words hlast none
    exact ⟨views, fun fuel hfuel => hrun fuel hfuel [], maximalRuns_iff.2 hviews⟩

/-- A text of one letter is split without end. -/
theorem splitStringView_letter : ¬∃ fuel views, splitStringView [65] [32] fuel = some views := by
  rintro ⟨fuel, views, hrun⟩
  have hnone : splitStringView [65] [32] fuel = none :=
    splitLoop_unfinished (show ([65] : Str).getLast? = some 65 from rfl) (by decide) fuel none
      Nat.zero_lt_one []
  exact nomatch hrun.symm.trans hnone

end Mmkv
