import QfsRepair.Text.Decimal
import Mathlib.Data.List.Infix

/-!
# Searching and splitting texts

The first occurrence of a pattern, and the parts of a text between the
occurrences of a delimiter.  A delimiter that does not overlap itself separates
the parts of a joined text wherever it was put.
-/

namespace QfsRepair.Text

open List
open Option hiding filter_filter

/-- The part of a text from `first` on, up to `last`; a `last` before `first`
wraps around to the end of the text. -/
def substr (text : List Char) (first last : ℕ) : List Char :=
  if last < first then text.drop first else (text.drop first).take (last - first)

/-- Where the pattern first occurs. -/
def findText (pattern : List Char) : List Char → Option ℕ
  | [] => if pattern = [] then some 0 else none
  | char :: chars =>
    if pattern.isPrefixOf (char :: chars) then some 0
    else (findText pattern chars).map (· + 1)

/-- Where the pattern last occurs. -/
def rfindText (pattern text : List Char) : Option ℕ :=
  (List.range (text.length + 1)).reverse.find? fun place => pattern.isPrefixOf (text.drop place)

/-- `split_string`: empty parts are dropped, except the last one.  The rounds
are bounded by the length of the text. -/
def splitString (delim : List Char) : ℕ → List Char → List (List Char)
  | 0, text => [text]
  | rounds + 1, text =>
    match findText delim text with
    | none => [text]
    | some last =>
      (if last = 0 then [] else [text.take last]) ++
        splitString delim rounds (text.drop (last + delim.length))

def split (text delim : List Char) : List (List Char) := splitString delim text.length text

def atoi (text : List Char) : ℤ := (strtoll text).bmod (2 ^ 32)

theorem atoi_decimalInt {value : ℤ} (hlow : -2 ^ 63 ≤ value) (hhigh : value < 2 ^ 63) :
    atoi (decimalInt value) = value.bmod (2 ^ 32) := by
  rw [atoi, strtoll_decimalInt hlow hhigh]

/-- A number is read back by `atoi` exactly when it has 32 bits. -/
theorem atoi_decimalInt_eq_iff {value : ℤ} (hlow : -2 ^ 63 ≤ value) (hhigh : value < 2 ^ 63) :
    atoi (decimalInt value) = value ↔ -2 ^ 31 ≤ value ∧ value < 2 ^ 31 := by
  rw [atoi_decimalInt hlow hhigh]
  constructor
  · intro heq
    have hle := Int.le_bmod (x := value) (show 0 < 2 ^ 32 by decide)
    have hlt := Int.bmod_lt (x := value) (show 0 < 2 ^ 32 by decide)
    omega
  · rintro ⟨hle, hlt⟩
    exact Int.bmod_eq_of_le (by omega) (by omega)

/-! ## Searching -/

section Searching

variable {pattern text front back : List Char} {char : Char} {place : ℕ}

theorem findText_singleton_cons (char first : Char) (rest : List Char) :
    findText [char] (first :: rest) =
      if char = first then some 0 else (findText [char] rest).map (· + 1) := by
  exact if_congr (by simp [isPrefixOf]) rfl rfl

/-- The first occurrence of a character. -/
theorem findText_singleton (hfront : char ∉ front) (back : List Char) :
    findText [char] (front ++ char :: back) = some front.length := by
  induction front with
  | nil => rw [nil_append, findText_singleton_cons, if_pos rfl, length_nil]
  | cons first rest ih =>
    obtain ⟨hfirst, hrest⟩ : char ≠ first ∧ char ∉ rest := by simpa using hfront
    rw [cons_append, findText_singleton_cons, if_neg hfirst, ih hrest, map_some, length_cons]

theorem findText_of_eq (htext : text = front ++ char :: back)
    (hfront : char ∉ front) : findText [char] text = some front.length := by
  rw [htext]
  exact findText_singleton hfront back

theorem findText_eq_none_iff : findText pattern text = none ↔ ¬ pattern <:+: text := by
  induction text with
  | nil =>
    rw [findText]
    simp
  | cons first rest ih =>
    rw [findText, infix_cons_iff, not_or, ← ih]
    by_cases hhead : pattern.isPrefixOf (first :: rest) = true
    · have hprefixed := List.isPrefixOf_iff_prefix.mp hhead
      simp [hprefixed]
    · have hnot : ¬ pattern <+: first :: rest :=
        fun h => hhead (List.isPrefixOf_iff_prefix.mpr h)
      simp [hnot]

theorem prefix_drop_of_findText (hpattern : pattern ≠ [])
    (hfind : findText pattern text = some place) : pattern <+: text.drop place := by
  induction text generalizing place with
  | nil =>
    rw [findText, if_neg hpattern] at hfind
    exact absurd hfind (some_ne_none _).symm
  | cons first rest ih =>
    rw [findText] at hfind
    split_ifs at hfind with hhead
    · obtain rfl := some.inj hfind
      exact List.isPrefixOf_iff_prefix.mp hhead
    · obtain ⟨place', hplace', rfl⟩ := map_eq_some_iff.mp hfind
      exact ih hplace'

end Searching

variable {char : Char}

/-- A pattern without a character lies on one side of it. -/
theorem infix_append_cons {pattern front back : List Char} (hchar : char ∉ pattern)
    (hinside : pattern <:+: front ++ char :: back) : pattern <:+: front ∨ pattern <:+: back := by
  induction front with
  | nil =>
    rcases infix_cons_iff.mp hinside with hstart | hback
    · cases pattern with
      | nil => exact .inl nil_infix
      | cons first rest =>
        obtain ⟨rfl, -⟩ := cons_prefix_cons.mp hstart
        exact absurd mem_cons_self hchar
    · exact .inr hback
  | cons first rest ih =>
    rcases infix_cons_iff.mp hinside with hstart | hrest
    · rcases Nat.lt_or_ge (first :: rest).length pattern.length with hlong | hshort
      · -- A start that reaches over the character has it.
        have hreach : (first :: rest) ++ [char] <+: first :: (rest ++ char :: back) :=
          ⟨back, by simp⟩
        have hmember : (first :: rest) ++ [char] <+: pattern :=
          prefix_of_prefix_length_le hreach hstart (by simpa using Nat.succ_le_of_lt hlong)
        exact absurd (hmember.subset (by simp)) hchar
      · exact .inl (prefix_of_prefix_length_le hstart
          (prefix_append (first :: rest) _) hshort).isInfix
    · rcases ih hrest with hfront | hback
      · exact .inl (infix_cons_iff.mpr (.inr hfront))
      · exact .inr hback

/-! ## Splitting -/

/-- No end of the delimiter is a start of it. -/
def BorderFree (delim : List Char) : Prop :=
  delim ≠ [] ∧ ∀ count < delim.length, 0 < count → ¬ delim.drop count <+: delim

instance (delim : List Char) : Decidable (BorderFree delim) :=
  inferInstanceAs (Decidable (_ ∧ _))

theorem borderFree_singleton (char : Char) : BorderFree [char] := by
  refine ⟨cons_ne_nil _ _, fun count hcount hpositive => ?_⟩
  rw [length_singleton] at hcount
  omega

theorem infix_singleton_iff {text : List Char} :
    [char] <:+: text ↔ char ∈ text := by
  constructor
  · intro hinside
    exact hinside.subset mem_cons_self
  · intro hmem
    obtain ⟨front, back, rfl⟩ := append_of_mem hmem
    exact ⟨front, back, by simp⟩

section Splitting

variable {delim : List Char} (hdelim : BorderFree delim)

include hdelim

/-- A delimiter is found where it was put, unless there is one before it. -/
theorem findText_append_delim (front back : List Char) :
    findText delim (front ++ (delim ++ back)) =
      some ((findText delim front).getD front.length) := by
  induction front with
  | nil =>
    obtain ⟨first, rest, hcons⟩ := exists_cons_of_ne_nil hdelim.1
    have hnone : findText delim [] = none := if_neg hdelim.1
    have hhead : delim.isPrefixOf (delim ++ back) = true :=
      List.isPrefixOf_iff_prefix.mpr (prefix_append _ _)
    rw [hnone, nil_append, getD_none, length_nil]
    rw [hcons, cons_append] at hhead ⊢
    rw [findText, if_pos hhead]
  | cons first rest ih =>
    rw [cons_append, findText, findText, ih]
    by_cases hinside : delim <+: first :: rest
    · have hlonger : delim <+: first :: (rest ++ (delim ++ back)) :=
        hinside.trans (prefix_append (first :: rest) _)
      rw [if_pos (List.isPrefixOf_iff_prefix.mpr hlonger),
        if_pos (List.isPrefixOf_iff_prefix.mpr hinside), getD_some]
    · have hnot : ¬ delim <+: first :: (rest ++ (delim ++ back)) := by
        intro hprefixed
        -- An occurrence that starts here and ends in the delimiter gives a border.
        rcases Nat.lt_or_ge rest.length.succ delim.length with hshort | hlong
        · apply hdelim.2 rest.length.succ hshort (Nat.succ_pos _)
          have hdrop := hprefixed.drop rest.length.succ
          rw [drop_succ_cons, drop_left] at hdrop
          refine prefix_of_prefix_length_le hdrop (prefix_append _ _) ?_
          rw [length_drop]
          omega
        · exact hinside (prefix_of_prefix_length_le hprefixed
            (prefix_append (first :: rest) _) hlong)
      rw [if_neg fun h => hnot (List.isPrefixOf_iff_prefix.mp h),
        if_neg fun h => hinside (List.isPrefixOf_iff_prefix.mp h)]
      cases findText delim rest <;> rfl

end Splitting

section Parts

variable {delim text : List Char}

theorem splitString_eq (hdelim : delim ≠ []) {rounds : ℕ} (hrounds : text.length ≤ rounds) :
    splitString delim rounds text = split text delim := by
  have hlength : 0 < delim.length := length_pos_of_ne_nil hdelim
  have hsame : ∀ size (text : List Char), text.length ≤ size → ∀ left right,
      text.length ≤ left → text.length ≤ right →
      splitString delim left text = splitString delim right text := by
    intro size
    induction size with
    | zero =>
      intro text htext left right _ _
      obtain rfl : text = [] := eq_nil_of_length_eq_zero (Nat.le_zero.mp htext)
      have hnone : findText delim [] = none := if_neg hdelim
      cases left <;> cases right <;> simp [splitString, hnone]
    | succ size ih =>
      intro text htext left right hleft hright
      cases hfind : findText delim text with
      | none => cases left <;> cases right <;> simp [splitString, hfind]
      | some place =>
        have hcons : text ≠ [] := by
          rintro rfl
          rw [findText, if_neg hdelim] at hfind
          exact absurd hfind (some_ne_none _).symm
        have hpos := length_pos_of_ne_nil hcons
        obtain ⟨left, rfl⟩ := Nat.exists_eq_add_of_lt (hpos.trans_le hleft)
        obtain ⟨right, rfl⟩ := Nat.exists_eq_add_of_lt (hpos.trans_le hright)
        simp only [Nat.zero_add, splitString, hfind]
        congr 1
        apply ih
        all_goals
          rw [length_drop]
          omega
  exact hsame _ text le_rfl _ _ hrounds le_rfl

theorem split_of_none (hfind : findText delim text = none) : split text delim = [text] := by
  rw [split]
  cases text.length with
  | zero => rfl
  | succ rounds => rw [splitString, hfind]

theorem split_of_some (hdelim : delim ≠ []) {place : ℕ} (hfind : findText delim text = some place) :
    split text delim = (if place = 0 then [] else [text.take place]) ++
      split (text.drop (place + delim.length)) delim := by
  have hlength : 0 < delim.length := length_pos_of_ne_nil hdelim
  have hcons : text ≠ [] := by
    rintro rfl
    rw [findText, if_neg hdelim] at hfind
    exact absurd hfind (some_ne_none _).symm
  obtain ⟨rounds, hrounds⟩ := Nat.exists_eq_add_of_lt (length_pos_of_ne_nil hcons)
  rw [split, hrounds, splitString, hfind]
  dsimp only
  rw [splitString_eq hdelim (by rw [length_drop]; omega)]

/-- The parts that are not empty. -/
def parts (text delim : List Char) : List (List Char) :=
  (split text delim).filter fun part => decide (part ≠ [])

section

variable (hdelim : BorderFree delim)

include hdelim

theorem split_append (front back : List Char) :
    split (front ++ (delim ++ back)) delim = parts front delim ++ split back delim := by
  induction hsize : front.length using Nat.strong_induction_on generalizing front with
  | _ size ih =>
    have hfound := findText_append_delim hdelim front back
    rw [split_of_some hdelim.1 hfound, parts]
    cases hfind : findText delim front with
    | none =>
      rw [split_of_none hfind, getD_none, ← drop_drop]
      by_cases hempty : front = [] <;> simp [hempty]
    | some place =>
      obtain ⟨rest, hrest⟩ := prefix_drop_of_findText hdelim.1 hfind
      have hle : place + delim.length ≤ front.length := by
        have hlength := congrArg length hrest
        rw [length_append, length_drop] at hlength
        have hpos := length_pos_of_ne_nil hdelim.1
        omega
      have hpos := length_pos_of_ne_nil hdelim.1
      have hdropped : (front ++ (delim ++ back)).drop (place + delim.length) =
          front.drop (place + delim.length) ++ (delim ++ back) :=
        drop_append_of_le_length hle
      rw [getD_some, hdropped, ih (front.drop (place + delim.length)).length
        (by rw [length_drop]; omega) _ rfl, split_of_some hdelim.1 hfind,
        filter_append, append_assoc, take_append_of_le_length (by omega)]
      congr 1
      by_cases hzero : place = 0
      · simp [hzero]
      · have htake : front.take place ≠ [] := by
          intro hnil
          have hlength := congrArg length hnil
          rw [length_take, length_nil] at hlength
          omega
        simp [hzero, htake]

theorem parts_append (front back : List Char) :
    parts (front ++ (delim ++ back)) delim = parts front delim ++ parts back delim := by
  rw [parts, split_append hdelim, filter_append]
  congr 1
  rw [parts]
  simp

omit hdelim in
@[simp]
theorem parts_nil (delim : List Char) : parts [] delim = [] := rfl

omit hdelim in
theorem split_eq_singleton (hfree : ¬ delim <:+: text) :
    split text delim = [text] :=
  split_of_none (findText_eq_none_iff.mpr hfree)

omit hdelim in
theorem parts_eq_singleton (hfree : ¬ delim <:+: text) (htext : text ≠ []) :
    parts text delim = [text] := by
  rw [parts, split_eq_singleton hfree]
  simp [htext]

/-- A text without the delimiter, or two texts around one. -/
theorem split_induction {P : List Char → Prop} (hfree : ∀ text, ¬ delim <:+: text → P text)
    (happend : ∀ front back, P front → P back → P (front ++ (delim ++ back)))
    (text : List Char) : P text := by
  induction hsize : text.length using Nat.strong_induction_on generalizing text with
  | _ size ih =>
    by_cases hinside : delim <:+: text
    · obtain ⟨front, back, htext⟩ := hinside
      have hpos := length_pos_of_ne_nil hdelim.1
      rw [← htext, append_assoc] at hsize ⊢
      simp only [length_append] at hsize
      exact happend front back (ih front.length (by omega) front rfl)
        (ih back.length (by omega) back rfl)
    · exact hfree text hinside

/-- A character outside the delimiter is in a part. -/
theorem exists_mem_parts (hchar : char ∈ text) (houtside : char ∉ delim) :
    ∃ part ∈ parts text delim, char ∈ part := by
  induction text using split_induction hdelim with
  | hfree text hfree =>
    rw [parts_eq_singleton hfree (ne_nil_of_mem hchar)]
    exact ⟨text, mem_singleton_self _, hchar⟩
  | happend front back ihfront ihback =>
    rw [parts_append hdelim]
    simp only [mem_append, houtside, false_or] at hchar ⊢
    rcases hchar with hfront | hback
    · obtain ⟨part, hpart, hmem⟩ := ihfront hfront
      exact ⟨part, .inl hpart, hmem⟩
    · obtain ⟨part, hpart, hmem⟩ := ihback hback
      exact ⟨part, .inr hpart, hmem⟩

theorem mem_of_mem_parts {part : List Char} (hpart : part ∈ parts text delim) : part ⊆ text := by
  induction text using split_induction hdelim with
  | hfree text hfree =>
    rw [parts, split_eq_singleton hfree] at hpart
    rw [mem_singleton.mp (mem_of_mem_filter hpart)]
    exact Subset.refl _
  | happend front back ihfront ihback =>
    rw [parts_append hdelim] at hpart
    rcases mem_append.mp hpart with hfront | hback
    · exact Subset.trans (ihfront hfront) (subset_append_left _ _)
    · exact Subset.trans (ihback hback)
        (Subset.trans (subset_append_right _ _) (subset_append_right _ _))

theorem parts_flatMap (texts : List (List Char)) (front : List Char) :
    parts (front ++ texts.flatMap (delim ++ ·)) delim =
      parts front delim ++ texts.flatMap (parts · delim) := by
  induction texts generalizing front with
  | nil => simp
  | cons first rest ih =>
    rw [flatMap_cons, append_assoc, parts_append hdelim, ih, flatMap_cons]

/-- Texts with the delimiter between them are split into themselves. -/
theorem split_joined {first : List Char} {rest : List (List Char)}
    (hfree : ∀ text ∈ first :: rest, text ≠ [] ∧ ¬ delim <:+: text) :
    split (first ++ rest.flatMap (delim ++ ·)) delim = first :: rest := by
  induction rest generalizing first with
  | nil =>
    rw [flatMap_nil, append_nil]
    exact split_eq_singleton (hfree first mem_cons_self).2
  | cons second rest ih =>
    obtain ⟨hne, hinside⟩ := hfree first mem_cons_self
    rw [flatMap_cons, append_assoc, split_append hdelim, parts_eq_singleton hinside hne,
      ih fun text htext => hfree text (mem_cons_of_mem _ htext)]
    rfl

/-- Texts with the delimiter before each are split into themselves. -/
theorem split_flatMap {texts : List (List Char)} (htexts : texts ≠ [])
    (hfree : ∀ text ∈ texts, text ≠ [] ∧ ¬ delim <:+: text) :
    split (texts.flatMap (delim ++ ·)) delim = texts := by
  obtain ⟨first, rest, rfl⟩ := exists_cons_of_ne_nil htexts
  rw [flatMap_cons, append_assoc, ← nil_append (delim ++ _),
    split_append hdelim, parts_nil, nil_append, split_joined hdelim hfree]

end

/-- Delimiters behind the texts are delimiters between them and a last one. -/
theorem flatMap_append_delim (delim first : List Char) (rest : List (List Char)) :
    (first :: rest).flatMap (· ++ delim) = (first ++ rest.flatMap (delim ++ ·)) ++ delim := by
  induction rest generalizing first with
  | nil => simp
  | cons second rest ih =>
    rw [flatMap_cons, ih, flatMap_cons]
    simp only [append_assoc]

end Parts

end QfsRepair.Text
