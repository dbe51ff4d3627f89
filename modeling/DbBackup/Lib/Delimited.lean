import Mathlib.Data.List.Count
import Mathlib.Data.List.TakeWhile
import Mathlib.Algebra.BigOperators.Ring.List
import Mathlib.Algebra.GroupWithZero.Nat
import Mathlib.Algebra.Order.BigOperators.Group.List

/-!
Owns texts whose parts stand between separators: what the parts of a list cut
at a separator hold, and words between separators that may repeat.

Contract: the parts of a text hold its elements apart from the separators, each
as often as the text (`sum_count_splitOnP`); the words of two texts with a
separator between them are those of the one and of the other
(`words_append_cons`). Parts that each end in the separator start another such
text exactly if they are its first parts (`terminated_isPrefix_iff`).
-/

set_option linter.all false

namespace DbBackup.Lib.Delimited

variable {α : Type*} {p : α → Bool}

/-- The non-empty parts between separators. -/
def words (p : α → Bool) (text : List α) : List (List α) :=
  (text.splitOnP p).filter fun part => !part.isEmpty

/-! ### Separators -/

variable {sep : α}

theorem append_cons_inj_left {a b c d : List α} (noSepA : sep ∉ a)
    (noSepC : sep ∉ c) (same : a ++ sep :: b = c ++ sep :: d) : a = c ∧ b = d := by
  induction a generalizing c with
  | nil =>
    cases c with
    | nil => simpa using same
    | cons head tail =>
      rw [List.nil_append, List.cons_append, List.cons.injEq] at same
      exact absurd (by simp [same.1]) noSepC
  | cons head tail ih =>
    cases c with
    | nil =>
      rw [List.nil_append, List.cons_append, List.cons.injEq] at same
      exact absurd (by simp [same.1]) noSepA
    | cons head' tail' =>
      rw [List.cons_append, List.cons_append, List.cons.injEq] at same
      rw [List.mem_cons, not_or] at noSepA noSepC
      obtain ⟨sameTail, sameRest⟩ := ih noSepA.2 noSepC.2 same.2
      exact ⟨by rw [same.1, sameTail], sameRest⟩

theorem append_cons_inj_right {a b c d : List α} (noSepB : sep ∉ b)
    (noSepD : sep ∉ d) (same : a ++ sep :: b = c ++ sep :: d) : a = c ∧ b = d := by
  have reversed := congrArg List.reverse same
  simp only [List.reverse_append, List.reverse_cons, List.append_assoc,
    List.singleton_append] at reversed
  obtain ⟨sameB, sameA⟩ := append_cons_inj_left (by simpa using noSepB) (by simpa using noSepD)
    reversed
  exact ⟨List.reverse_injective sameA, List.reverse_injective sameB⟩

/-- Every part, with the separator after it. -/
def terminated (sep : α) (parts : List (List α)) : List α :=
  parts.flatMap fun part => part ++ [sep]

theorem terminated_cons (sep : α) (part : List α) (parts : List (List α)) :
    terminated sep (part :: parts) = part ++ sep :: terminated sep parts := by
  simp [terminated]

theorem terminated_append (sep : α) (parts others : List (List α)) :
    terminated sep (parts ++ others) = terminated sep parts ++ terminated sep others := by
  simp [terminated]

/-- Terminated parts start another text exactly if they are its first parts. -/
theorem terminated_isPrefix_iff {parts others : List (List α)} {last : List α}
    (noSep : ∀ part ∈ parts, sep ∉ part) (othersNoSep : ∀ part ∈ others, sep ∉ part)
    (lastNoSep : sep ∉ last) :
    terminated sep parts <+: terminated sep others ++ last ↔ parts <+: others := by
  induction parts generalizing others with
  | nil => simp [terminated]
  | cons part parts ih =>
    rw [terminated_cons]
    cases others with
    | nil =>
      constructor
      · intro starts
        have inLast : sep ∈ last := by
          simpa [terminated] using starts.subset (by simp : sep ∈ part ++ sep :: _)
        exact absurd inLast lastNoSep
      · intro starts
        exact absurd (List.prefix_nil.mp starts) (by simp)
    | cons other others =>
      have rest := @ih others
        (fun part member => noSep part (by simp [member]))
        (fun part member => othersNoSep part (by simp [member]))
      rw [terminated_cons, List.cons_prefix_cons, List.append_assoc, List.cons_append]
      constructor
      · rintro ⟨more, same⟩
        rw [List.append_assoc, List.cons_append] at same
        obtain ⟨samePart, sameRest⟩ := append_cons_inj_left (noSep part (by simp))
          (othersNoSep other (by simp)) same
        exact ⟨samePart, rest.mp ⟨more, sameRest⟩⟩
      · rintro ⟨rfl, starts⟩
        obtain ⟨more, same⟩ := rest.mpr starts
        exact ⟨more, by rw [List.append_assoc, List.cons_append, same]⟩

theorem terminated_splitOn [DecidableEq α] (sep : α) (text : List α) :
    terminated sep (text.splitOn sep) = text ++ [sep] := by
  have whole : [sep].intercalate (text.splitOn sep) = text := List.intercalate_splitOn sep
  have joined : ∀ parts : List (List α), parts ≠ [] →
      terminated sep parts = [sep].intercalate parts ++ [sep] := by
    intro parts
    induction parts with
    | nil => intro notEmpty; exact absurd rfl notEmpty
    | cons part rest ih =>
      intro _
      cases rest with
      | nil => simp [terminated]
      | cons next others =>
        rw [terminated_cons, ih (by simp), List.intercalate_cons_cons]
        simp
  rw [joined _ (List.splitOn_ne_nil _ _), whole]

/-! ### Parts -/

theorem splitOnP_cons_sep {sep : α} (isSep : p sep = true) (rest : List α) :
    (sep :: rest).splitOnP p = [] :: rest.splitOnP p := by
  rw [List.splitOnP_cons_eq_if_modifyHead, if_pos isSep]

theorem splitOnP_cons_other {c : α} (other : p c = false) (rest : List α) :
    ∃ head tail, rest.splitOnP p = head :: tail ∧
      (c :: rest).splitOnP p = (c :: head) :: tail := by
  cases parts : rest.splitOnP p with
  | nil => exact absurd parts (List.splitOnP_ne_nil _ _)
  | cons head tail =>
    refine ⟨head, tail, rfl, ?_⟩
    rw [List.splitOnP_cons_eq_if_modifyHead, if_neg (by simp [other]), parts]
    rfl

/-- The last part of a text and the first part of what follows it grow together. -/
theorem splitOnP_append (first : List α) : ∃ init last, first.splitOnP p = init ++ [last] ∧
      ∀ {second head : List α} {tail : List (List α)}, second.splitOnP p = head :: tail →
        (first ++ second).splitOnP p = init ++ (last ++ head) :: tail := by
  induction first with
  | nil => exact ⟨[], [], rfl, fun split => split⟩
  | cons c first ih =>
    obtain ⟨init, last, parts, extended⟩ := ih
    by_cases sep : p c = true
    · refine ⟨[] :: init, last, by rw [splitOnP_cons_sep sep, parts]; rfl, ?_⟩
      intro second head tail split
      rw [List.cons_append, splitOnP_cons_sep sep, extended split]
      rfl
    · obtain ⟨start, others, whole, grown⟩ := splitOnP_cons_other (Bool.eq_false_iff.mpr sep) first
      rw [parts] at whole
      cases init with
      | nil =>
        rw [List.nil_append, List.cons.injEq] at whole
        obtain ⟨rfl, rfl⟩ := whole
        refine ⟨[], c :: last, grown, ?_⟩
        intro second head tail split
        have later := extended split
        rw [List.cons_append, List.splitOnP_cons_eq_if_modifyHead, if_neg sep, later]
        rfl
      | cons part init =>
        rw [List.cons_append, List.cons.injEq] at whole
        obtain ⟨rfl, rfl⟩ := whole
        refine ⟨(c :: part) :: init, last, grown, ?_⟩
        intro second head tail split
        have later := extended split
        rw [List.cons_append, List.splitOnP_cons_eq_if_modifyHead, if_neg sep, later]
        rfl

theorem mem_splitOnP {text part : List α} (member : part ∈ text.splitOnP p) :
    ∀ c ∈ part, p c = false ∧ c ∈ text := by
  induction text generalizing part with
  | nil =>
    rw [List.splitOnP_nil, List.mem_singleton] at member
    simp [member]
  | cons c rest ih =>
    cases isSep : p c with
    | true =>
      rw [splitOnP_cons_sep isSep] at member
      rcases List.mem_cons.mp member with rfl | later
      · simp
      · intro d inPart
        have found := ih later d inPart
        exact ⟨found.1, List.mem_cons_of_mem _ found.2⟩
    | false =>
      obtain ⟨head, tail, parts, shape⟩ := splitOnP_cons_other isSep rest
      rw [parts] at ih
      rw [shape] at member
      rcases List.mem_cons.mp member with rfl | later
      · intro d inPart
        rcases List.mem_cons.mp inPart with rfl | inHead
        · exact ⟨isSep, List.mem_cons_self⟩
        · have found := ih List.mem_cons_self d inHead
          exact ⟨found.1, List.mem_cons_of_mem _ found.2⟩
      · intro d inPart
        have found := ih (List.mem_cons_of_mem _ later) d inPart
        exact ⟨found.1, List.mem_cons_of_mem _ found.2⟩

/-- What has no separator stays with the first part after it. -/
theorem splitOnP_append_of_none {first rest head : List α} {tail : List (List α)}
    (none : ∀ c ∈ first, p c = false) (parts : rest.splitOnP p = head :: tail) :
    (first ++ rest).splitOnP p = (first ++ head) :: tail := by
  induction first with
  | nil => exact parts
  | cons c first ih =>
    have shorter := ih (List.forall_mem_cons.mp none).2
    obtain ⟨next, others, found, shape⟩ :=
      splitOnP_cons_other (none c List.mem_cons_self) (first ++ rest)
    rw [shorter] at found
    obtain ⟨rfl, rfl⟩ := List.cons.inj found
    exact shape

theorem prefix_of_splitOnP {text head : List α} {tail : List (List α)}
    (parts : text.splitOnP p = head :: tail) : head <+: text := by
  induction text generalizing head tail with
  | nil =>
    rw [List.splitOnP_nil] at parts
    obtain ⟨rfl, -⟩ := List.cons.inj parts
    exact List.nil_prefix
  | cons c rest ih =>
    cases isSep : p c with
    | true =>
      rw [splitOnP_cons_sep isSep] at parts
      obtain ⟨rfl, -⟩ := List.cons.inj parts
      exact List.nil_prefix
    | false =>
      obtain ⟨next, others, restParts, shape⟩ := splitOnP_cons_other isSep rest
      rw [shape] at parts
      rw [← (List.cons.inj parts).1]
      exact (List.prefix_cons_inj c).mpr (ih restParts)

/-- A part is a piece of the text. -/
theorem infix_of_mem_splitOnP {text part : List α} (member : part ∈ text.splitOnP p) :
    part <:+: text := by
  induction text generalizing part with
  | nil =>
    rw [List.splitOnP_nil] at member
    obtain rfl := List.mem_singleton.mp member
    exact List.nil_infix
  | cons c rest ih =>
    have inRest {other : List α} (later : other ∈ rest.splitOnP p) : other <:+: c :: rest :=
      (ih later).trans (List.suffix_cons c rest).isInfix
    cases isSep : p c with
    | true =>
      rw [splitOnP_cons_sep isSep] at member
      rcases List.mem_cons.mp member with rfl | later
      · exact List.nil_infix
      · exact inRest later
    | false =>
      obtain ⟨head, tail, parts, shape⟩ := splitOnP_cons_other isSep rest
      rw [shape] at member
      rcases List.mem_cons.mp member with rfl | later
      · exact (prefix_of_splitOnP shape).isInfix
      · exact inRest (parts ▸ List.mem_cons_of_mem _ later)

/-- The parts hold every element that is no separator as often as the text. -/
theorem sum_count_splitOnP [DecidableEq α] {x : α} (other : p x = false) (text : List α) :
    ((text.splitOnP p).map (List.count x)).sum = text.count x := by
  induction text with
  | nil => simp
  | cons c rest ih =>
    cases isSep : p c with
    | true =>
      have different : c ≠ x := by
        intro same
        rw [same, other] at isSep
        cases isSep
      rw [splitOnP_cons_sep isSep, List.map_cons, List.sum_cons, ih,
        List.count_cons_of_ne different]
      simp
    | false =>
      obtain ⟨head, tail, parts, shape⟩ := splitOnP_cons_other isSep rest
      rw [parts, List.map_cons, List.sum_cons] at ih
      rw [shape, List.map_cons, List.sum_cons, List.count_cons, List.count_cons]
      omega

theorem length_splitOn [DecidableEq α] (text : List α) (sep : α) :
    (text.splitOn sep).length = text.count sep + 1 := by
  rw [List.splitOn_eq_splitOnP]
  induction text with
  | nil => simp
  | cons c rest ih =>
    by_cases same : c = sep
    · have isSep : (c == sep) = true := by simp [same]
      rw [@splitOnP_cons_sep α (· == sep) c isSep, List.length_cons, ih, same,
        List.count_cons_self]
    · have other : (c == sep) = false := by simp [same]
      obtain ⟨head, tail, parts, shape⟩ := @splitOnP_cons_other α (· == sep) c other rest
      rw [parts] at ih
      rw [shape, List.count_cons_of_ne same, List.length_cons]
      exact ih

/-- Where every part gives something, nothing is left out. -/
theorem filterMap_map_eq {β γ : Type*} {find : β → Option γ} {write : α → β} {value : α → γ}
    {items : List α} (each : ∀ item ∈ items, find (write item) = some (value item)) :
    (items.map write).filterMap find = items.map value := by
  induction items with
  | nil => rfl
  | cons item rest ih =>
    rw [List.map_cons, List.filterMap_cons, each item List.mem_cons_self, List.map_cons,
      ih (List.forall_mem_cons.mp each).2]

/-- What is found in some parts weighs no more than all of them. -/
theorem sum_filterMap_le {β : Type*} {find : α → Option β} {found : β → Nat} {weight : α → Nat}
    (bounded : ∀ part value, find part = some value → found value ≤ weight part) (parts : List α) :
    ((parts.filterMap find).map found).sum ≤ (parts.map weight).sum := by
  induction parts with
  | nil => exact Nat.le_refl _
  | cons part rest ih =>
    rw [List.filterMap_cons, List.map_cons, List.sum_cons]
    cases isFound : find part with
    | none => exact Nat.le_trans ih (Nat.le_add_left _ _)
    | some value =>
      rw [List.map_cons, List.sum_cons]
      exact Nat.add_le_add (bounded part value isFound) ih

/-! ### Joined parts -/

theorem mem_intercalate {sep c : α} {parts : List (List α)} (member : c ∈ [sep].intercalate parts) :
    c = sep ∨ ∃ part ∈ parts, c ∈ part := by
  induction parts with
  | nil => cases member
  | cons part rest ih =>
    cases rest with
    | nil => exact .inr ⟨part, List.mem_cons_self, by simpa using member⟩
    | cons next others =>
      rw [List.intercalate_cons_cons, List.mem_append, List.mem_append, List.mem_singleton]
        at member
      rcases member with (inPart | isSep) | inRest
      · exact .inr ⟨part, List.mem_cons_self, inPart⟩
      · exact .inl isSep
      · rcases ih inRest with isSep | ⟨found, inParts, inFound⟩
        · exact .inl isSep
        · exact .inr ⟨found, List.mem_cons_of_mem _ inParts, inFound⟩

theorem count_intercalate [DecidableEq α] {sep x : α} (different : x ≠ sep) (parts : List (List α)) :
    ([sep].intercalate parts).count x = (parts.map (List.count x)).sum := by
  induction parts with
  | nil => rfl
  | cons part rest ih =>
    cases rest with
    | nil => simp
    | cons next others =>
      rw [List.intercalate_cons_cons, List.count_append, List.count_append, ih,
        List.map_cons, List.sum_cons, List.count_singleton]
      simp [different.symm]

/-- A part stands between what is before it and what is after it. -/
theorem intercalate_split {sep : α} {parts : List (List α)} {part : List α} (member : part ∈ parts) :
    ∃ before after, [sep].intercalate parts = before ++ part ++ after := by
  induction parts with
  | nil => cases member
  | cons head rest ih =>
    cases rest with
    | nil =>
      rw [List.mem_singleton.mp member]
      exact ⟨[], [], by simp⟩
    | cons next others =>
      rw [List.intercalate_cons_cons]
      rcases List.mem_cons.mp member with rfl | later
      · exact ⟨[], [sep] ++ [sep].intercalate (next :: others), by simp⟩
      · obtain ⟨before, after, shape⟩ := ih later
        exact ⟨head ++ [sep] ++ before, after, by rw [shape]; simp⟩

/-- Splitting joined parts splits every part. -/
theorem splitOn_intercalate_flatMap [DecidableEq α] (sep : α) {parts : List (List α)}
    (notEmpty : parts ≠ []) :
    ([sep].intercalate parts).splitOn sep = parts.flatMap fun part => part.splitOn sep := by
  induction parts with
  | nil => exact absurd rfl notEmpty
  | cons part rest ih =>
    cases rest with
    | nil => simp
    | cons next others =>
      rw [List.intercalate_cons_cons, List.append_assoc, List.singleton_append,
        List.splitOn_append_cons_self, ih (List.cons_ne_nil _ _)]
      rfl

/-! ### Words -/

theorem words_append_cons (first second : List α) {sep : α} (isSep : p sep = true) :
    words p (first ++ sep :: second) = words p first ++ words p second := by
  unfold words
  rw [List.splitOnP_append_cons _ _ isSep, List.filter_append]

theorem words_nil : words p [] = [] := rfl

theorem words_cons_sep (isSep : p sep = true) (rest : List α) :
    words p (sep :: rest) = words p rest := by
  have cut := @words_append_cons α p [] rest sep isSep
  rw [words_nil, List.nil_append, List.nil_append] at cut
  exact cut

theorem words_of_none {text : List α} (none : ∀ c ∈ text, p c = false) (notEmpty : text ≠ []) :
    words p text = [text] := by
  unfold words
  rw [List.splitOnP_eq_singleton none]
  simp [notEmpty]

theorem mem_words {text word : List α} (member : word ∈ words p text) :
    ∀ c ∈ word, p c = false ∧ c ∈ text :=
  mem_splitOnP (List.mem_filter.mp member).1

theorem infix_of_mem_words {text word : List α} (member : word ∈ words p text) : word <:+: text :=
  infix_of_mem_splitOnP (List.mem_filter.mp member).1

/-- A text that does not begin with a separator begins with its first word. -/
theorem words_eq_cons {text : List α} (start : (text.takeWhile fun c => !p c) ≠ []) : words p text =
      (text.takeWhile fun c => !p c) :: words p (text.dropWhile fun c => !p c) := by
  have clean : ∀ c ∈ text.takeWhile fun c => !p c, p c = false := by
    intro c member
    have kept := List.mem_takeWhile_imp member
    simpa using kept
  have whole : text = (text.takeWhile fun c => !p c) ++ text.dropWhile fun c => !p c :=
    (List.takeWhile_append_dropWhile).symm
  cases rest : text.dropWhile fun c => !p c with
  | nil =>
    rw [rest, List.append_nil] at whole
    rw [words_nil, ← whole]
    rw [← whole] at clean start
    exact words_of_none clean start
  | cons sep more =>
    have isSep : p sep = true := by
      have stopped := List.head?_dropWhile_not (fun c => !p c) text
      rw [rest] at stopped
      simpa using stopped
    rw [rest] at whole
    rw [words_cons_sep isSep]
    conv => lhs; rw [whole]
    rw [words_append_cons _ _ isSep, words_of_none clean start]
    rfl

theorem sum_count_words [DecidableEq α] {x : α} (other : p x = false) (text : List α) :
    ((words p text).map (List.count x)).sum = text.count x := by
  rw [← sum_count_splitOnP other text]
  unfold words
  induction text.splitOnP p with
  | nil => rfl
  | cons part rest ih =>
    cases part with
    | nil => simpa using ih
    | cons c part => simpa using ih

end DbBackup.Lib.Delimited
