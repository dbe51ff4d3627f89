import Mathlib.Data.List.Perm.Basic
import Mathlib.Data.List.Nodup

/-!
Owns documents as ordered lists of named fields and what is left of their order
once they go through unordered maps.

Contract: a map keeps one value a name, the last, and is written in any order,
and so are the maps inside it (`Remapped`). A value comes back as it was from
every such writing exactly if each of its documents has at most one field
(`rigid_iff`). What a map wrote, another map can write the same way again
(`Remapped.self`).
-/

set_option linter.all false

namespace DbBackup.Lib.FieldOrder

inductive Value (σ : Type) where
  | text (value : String)
  | scalar (value : σ)
  | array (items : List (Value σ))
  | document (fields : List (String × Value σ))

variable {σ : Type}

/-- The fields of a map filled in order: the last of each name stays. -/
def lastWins {α : Type} : List (String × α) → List (String × α)
  | [] => []
  | field :: rest =>
    if field.1 ∈ rest.map Prod.fst then lastWins rest else field :: lastWins rest

/-- A value read into maps and written from them. -/
inductive Remapped : Value σ → Value σ → Prop where
  | text (value : String) : Remapped (.text value) (.text value)
  | scalar (value : σ) : Remapped (.scalar value) (.scalar value)
  | array {items written : List (Value σ)} (each : List.Forall₂ Remapped items written) :
      Remapped (.array items) (.array written)
  | document {fields kept written : List (String × Value σ)}
      (names : (lastWins fields).map Prod.fst = kept.map Prod.fst)
      (each : List.Forall₂ Remapped ((lastWins fields).map Prod.snd) (kept.map Prod.snd))
      (order : kept.Perm written) : Remapped (.document fields) (.document written)

/-- No document of the value has two fields. -/
inductive Rigid : Value σ → Prop where
  | text (value : String) : Rigid (.text value)
  | scalar (value : σ) : Rigid (.scalar value)
  | array {items : List (Value σ)} (each : ∀ item ∈ items, Rigid item) : Rigid (.array items)
  | empty : Rigid (.document [])
  | single {name : String} {value : Value σ} (inner : Rigid value) :
      Rigid (.document [(name, value)])

variable {fields : List (String × Value σ)}

theorem sizeOf_snd_lt {field : String × Value σ}
    (member : field ∈ fields) : sizeOf field.2 < sizeOf fields := by
  have smaller := List.sizeOf_lt_of_mem member
  obtain ⟨name, value⟩ := field
  simp only [Prod.mk.sizeOf_spec] at smaller
  simp only
  omega

/-- Induction on a value through the members of its lists. -/
theorem Value.induct {motive : Value σ → Prop} (text : ∀ value, motive (.text value))
    (scalar : ∀ value, motive (.scalar value))
    (array : ∀ items, (∀ item ∈ items, motive item) → motive (.array items))
    (document : ∀ fields : List (String × Value σ), (∀ field ∈ fields, motive field.2) →
      motive (.document fields)) : ∀ value, motive value
  | .text value => text value
  | .scalar value => scalar value
  | .array items => array items fun item member =>
    have : sizeOf item < sizeOf items := List.sizeOf_lt_of_mem member
    Value.induct text scalar array document item
  | .document fields => document fields fun field member =>
    have : sizeOf field.2 < sizeOf fields := sizeOf_snd_lt member
    Value.induct text scalar array document field.2
termination_by value => sizeOf value

/-! ### The last of each name -/

theorem lastWins_subset {α : Type} {fields : List (String × α)} {field : String × α}
    (member : field ∈ lastWins fields) : field ∈ fields := by
  induction fields with
  | nil => exact member
  | cons head rest ih =>
    rw [lastWins] at member
    split at member
    · exact List.mem_cons_of_mem _ (ih member)
    · rcases List.mem_cons.mp member with rfl | later
      · exact List.mem_cons_self
      · exact List.mem_cons_of_mem _ (ih later)

theorem nodup_lastWins {α : Type} (fields : List (String × α)) :
    ((lastWins fields).map Prod.fst).Nodup := by
  induction fields with
  | nil => exact List.nodup_nil
  | cons head rest ih =>
    rw [lastWins]
    split
    · exact ih
    · rename_i absent
      rw [List.map_cons, List.nodup_cons]
      refine ⟨fun repeated => absent ?_, ih⟩
      obtain ⟨field, member, same⟩ := List.mem_map.mp repeated
      exact List.mem_map.mpr ⟨field, lastWins_subset member, same⟩

theorem lastWins_of_nodup {α : Type} {fields : List (String × α)}
    (distinct : (fields.map Prod.fst).Nodup) : lastWins fields = fields := by
  induction fields with
  | nil => rfl
  | cons head rest ih =>
    rw [List.map_cons, List.nodup_cons] at distinct
    rw [lastWins, if_neg distinct.1, ih distinct.2]

/-! ### Writing documents -/

def FieldRemapped (field written : String × Value σ) : Prop :=
  field.1 = written.1 ∧ Remapped field.2 written.2

theorem forall₂_fieldRemapped_iff {fields kept : List (String × Value σ)} :
    List.Forall₂ FieldRemapped fields kept ↔ fields.map Prod.fst = kept.map Prod.fst ∧
      List.Forall₂ Remapped (fields.map Prod.snd) (kept.map Prod.snd) := by
  induction fields generalizing kept with
  | nil => cases kept <;> simp
  | cons field rest ih =>
    cases kept with
    | nil => simp
    | cons other others =>
      rw [List.forall₂_cons, ih]
      simp only [FieldRemapped, List.map_cons, List.cons.injEq, List.forall₂_cons]
      constructor
      · rintro ⟨⟨name, value⟩, names, values⟩
        exact ⟨⟨name, names⟩, value, values⟩
      · rintro ⟨⟨name, names⟩, value, values⟩
        exact ⟨⟨name, value⟩, names, values⟩

variable {value : Value σ}

theorem remapped_document_iff :
    Remapped (.document fields) value ↔
      ∃ kept written, value = .document written ∧
        List.Forall₂ FieldRemapped (lastWins fields) kept ∧ kept.Perm written := by
  constructor
  · intro remapped
    cases remapped with
    | @document _ kept written names each order =>
      exact ⟨kept, written, rfl, forall₂_fieldRemapped_iff.mpr ⟨names, each⟩, order⟩
  · rintro ⟨kept, written, rfl, each, order⟩
    obtain ⟨names, values⟩ := forall₂_fieldRemapped_iff.mp each
    exact .document names values order

theorem forall₂_of_exists {α β : Type} {relation : α → β → Prop} {items : List α}
    (each : ∀ item ∈ items, ∃ other, relation item other) :
    ∃ others, List.Forall₂ relation items others := by
  induction items with
  | nil => exact ⟨[], .nil⟩
  | cons item rest ih =>
    obtain ⟨other, related⟩ := each item List.mem_cons_self
    obtain ⟨others, all⟩ := ih (List.forall_mem_cons.mp each).2
    exact ⟨other :: others, .cons related all⟩

theorem exists_remapped (value : Value σ) : ∃ written, Remapped value written := by
  induction value using Value.induct with
  | text value => exact ⟨_, .text value⟩
  | scalar value => exact ⟨_, .scalar value⟩
  | array items ih =>
    obtain ⟨written, each⟩ := forall₂_of_exists ih
    exact ⟨_, .array each⟩
  | document fields ih =>
    have each : ∀ field ∈ lastWins fields, ∃ written, FieldRemapped field written := by
      intro field member
      obtain ⟨value, remapped⟩ := ih field (lastWins_subset member)
      exact ⟨(field.1, value), rfl, remapped⟩
    obtain ⟨kept, all⟩ := forall₂_of_exists each
    exact ⟨_, remapped_document_iff.mpr ⟨kept, kept, rfl, all, .refl _⟩⟩

theorem exists_fieldRemapped (fields : List (String × Value σ)) :
    ∃ kept, List.Forall₂ FieldRemapped fields kept := by
  refine forall₂_of_exists fun field _ => ?_
  obtain ⟨value, remapped⟩ := exists_remapped field.2
  exact ⟨(field.1, value), rfl, remapped⟩

theorem exists_remapped_document (fields : List (String × Value σ)) :
    ∃ written, Remapped (.document fields) (.document written) := by
  obtain ⟨value, remapped⟩ := exists_remapped (.document fields)
  obtain ⟨kept, written, rfl, -⟩ := remapped_document_iff.mp remapped
  exact ⟨written, remapped⟩

theorem names_of_remapped {fields written : List (String × Value σ)}
    (remapped : Remapped (.document fields) (.document written)) :
    (written.map Prod.fst).Perm ((lastWins fields).map Prod.fst) := by
  obtain ⟨kept, _, same, each, order⟩ := remapped_document_iff.mp remapped
  obtain rfl := Value.document.inj same
  rw [(forall₂_fieldRemapped_iff.mp each).1]
  exact (order.map Prod.fst).symm

theorem nodup_of_remapped {fields written : List (String × Value σ)}
    (remapped : Remapped (.document fields) (.document written)) :
    (written.map Prod.fst).Nodup :=
  (names_of_remapped remapped).nodup_iff.mpr (nodup_lastWins fields)

theorem forall₂_self {α β : Type} {relation : α → β → Prop} {same : β → β → Prop}
    {items : List α} {others : List β} (each : List.Forall₂ relation items others)
    (selfRelated : ∀ item ∈ items, ∀ other, relation item other → same other other) :
    ∀ other ∈ others, same other other := by
  induction each with
  | nil => simp
  | cons related _ ih =>
    intro one member
    rcases List.mem_cons.mp member with rfl | later
    · exact selfRelated _ List.mem_cons_self _ related
    · exact ih (fun item isItem => selfRelated item
        (List.mem_cons_of_mem _ isItem)) one later

/-- A map can be written in the order it was read in. -/
theorem Remapped.self {value written : Value σ} (remapped : Remapped value written) :
    Remapped written written := by
  induction value using Value.induct generalizing written with
  | text value =>
    cases remapped
    exact .text _
  | scalar value =>
    cases remapped
    exact .scalar _
  | array items ih =>
    cases remapped with
    | array each =>
      refine .array (List.forall₂_same.mpr ?_)
      exact forall₂_self each fun item member other related =>
        ih item member related
  | document fields ih =>
    obtain ⟨kept, written, rfl, each, order⟩ := remapped_document_iff.mp remapped
    have distinct := nodup_of_remapped remapped
    refine remapped_document_iff.mpr ⟨written, written, rfl, ?_, .refl _⟩
    rw [lastWins_of_nodup distinct]
    have selfKept : ∀ field ∈ kept, FieldRemapped field field :=
      forall₂_self each fun field member other related =>
        ⟨rfl, ih field (lastWins_subset member) related.2⟩
    exact List.forall₂_same.mpr fun field member => selfKept field (order.mem_iff.mpr member)

/-! ### Values with one order only -/

section Fixed

variable {α : Type} {relation : α → α → Prop} {items others : List α}

theorem eq_of_forall₂ (each : List.Forall₂ relation items others)
    (fixed : ∀ item ∈ items, ∀ other, relation item other → other = item) : others = items := by
  induction each with
  | nil => rfl
  | cons related _ ih =>
    rw [fixed _ List.mem_cons_self _ related,
      ih (List.forall_mem_cons.mp fixed).2]

theorem fixed_of_forall₂ (total : ∀ item ∈ items, ∃ other, relation item other)
    (fixed : ∀ others, List.Forall₂ relation items others → others = items) :
    ∀ item ∈ items, ∀ other, relation item other → other = item := by
  induction items with
  | nil => simp
  | cons head rest ih =>
    obtain ⟨one, headRelated⟩ := total head List.mem_cons_self
    have restTotal := (List.forall_mem_cons.mp total).2
    obtain ⟨tail, restRelated⟩ := forall₂_of_exists restTotal
    have restFixed := ih restTotal fun others each =>
      (List.cons.inj (fixed (one :: others) (.cons headRelated each))).2
    intro item member other related
    rcases List.mem_cons.mp member with rfl | later
    · exact (List.cons.inj (fixed (other :: tail) (.cons related restRelated))).1
    · exact restFixed item later other related

end Fixed

theorem Rigid.eq {value written : Value σ} (rigid : Rigid value) (remapped : Remapped value written) :
    written = value := by
  induction rigid generalizing written with
  | text value =>
    cases remapped
    rfl
  | scalar value =>
    cases remapped
    rfl
  | array _ ih =>
    cases remapped with
    | array each =>
      rw [eq_of_forall₂ each fun item member other related =>
        ih item member related]
  | empty =>
    obtain ⟨kept, written, rfl, each, order⟩ := remapped_document_iff.mp remapped
    cases each
    rw [List.nil_perm.mp order]
  | @single name value _ ih =>
    obtain ⟨kept, written, rfl, each, order⟩ := remapped_document_iff.mp remapped
    have distinct : (([(name, value)] : List (String × Value σ)).map Prod.fst).Nodup :=
      List.nodup_singleton name
    rw [lastWins_of_nodup distinct] at each
    have same := eq_of_forall₂ each fun field member other related => by
      rw [List.mem_singleton.mp member] at related ⊢
      exact Prod.ext related.1.symm (ih related.2)
    rw [same, List.singleton_perm] at order
    rw [← order]

theorem rigid_of_fixed (fixed : ∀ written, Remapped value written → written = value) :
    Rigid value := by
  induction value using Value.induct with
  | text value => exact .text value
  | scalar value => exact .scalar value
  | array items ih =>
    have itemsFixed := fixed_of_forall₂ (fun item _ => exists_remapped item) fun others each =>
      Value.array.inj (fixed _ (.array each))
    exact .array fun item member => ih item member (itemsFixed item member)
  | document fields ih =>
    have same {written : List (String × Value σ)}
        (remapped : Remapped (.document fields) (.document written)) : written = fields :=
      Value.document.inj (fixed _ remapped)
    obtain ⟨some, someRemapped⟩ := exists_remapped_document fields
    have distinct : (fields.map Prod.fst).Nodup := by
      have written := nodup_of_remapped someRemapped
      rwa [same someRemapped] at written
    match fields with
    | [] => exact .empty
    | [(name, value)] =>
      refine .single (ih (name, value) (List.mem_singleton_self _) ?_)
      intro other remapped
      have rewritten : Remapped (.document [(name, value)]) (.document [(name, other)]) := by
        refine remapped_document_iff.mpr ⟨_, _, rfl, ?_, .refl _⟩
        rw [lastWins_of_nodup distinct]
        exact .cons ⟨rfl, remapped⟩ .nil
      exact (Prod.mk.inj (List.cons.inj (same rewritten)).1).2
    | first :: second :: rest =>
      -- The other order of the first two fields is another writing.
      obtain ⟨kept, each⟩ := exists_fieldRemapped (first :: second :: rest)
      have inOrder : kept = first :: second :: rest := by
        refine same (remapped_document_iff.mpr ⟨kept, kept, rfl, ?_, .refl _⟩)
        rwa [lastWins_of_nodup distinct]
      have swapped : second :: first :: rest = first :: second :: rest := by
        refine same (remapped_document_iff.mpr ⟨kept, _, rfl, ?_, ?_⟩)
        · rwa [lastWins_of_nodup distinct]
        · rw [inOrder]
          exact .swap second first rest
      have equal : second = first := (List.cons.inj swapped).1
      simp [equal] at distinct

/-- A value comes back as it was, whatever order its maps are written in,
exactly if no document of it has two fields. -/
theorem rigid_iff :
    Rigid value ↔ ∀ written, Remapped value written → written = value :=
  ⟨fun rigid _ remapped => rigid.eq remapped, rigid_of_fixed⟩

/-- Rigid values leave only the order of the fields open. -/
theorem perm_of_remapped {fields written : List (String × Value σ)}
    (distinct : (fields.map Prod.fst).Nodup) (rigid : ∀ field ∈ fields, Rigid field.2)
    (remapped : Remapped (.document fields) (.document written)) : written.Perm fields := by
  obtain ⟨kept, _, same, each, order⟩ := remapped_document_iff.mp remapped
  obtain rfl := Value.document.inj same
  rw [lastWins_of_nodup distinct] at each
  have unchanged := eq_of_forall₂ each fun field member other related =>
    Prod.ext related.1.symm ((rigid field member).eq related.2)
  rw [← unchanged]
  exact order.symm

/-! ### The value under a name -/

theorem lookup_eq_some_iff
    (distinct : (fields.map Prod.fst).Nodup) (name : String) (value : Value σ) :
    fields.lookup name = some value ↔ (name, value) ∈ fields := by
  induction fields with
  | nil => simp
  | cons head rest ih =>
    obtain ⟨key, other⟩ := head
    rw [List.map_cons, List.nodup_cons] at distinct
    by_cases same : name = key
    · subst same
      rw [List.lookup_cons_self, Option.some.injEq, List.mem_cons, Prod.mk.injEq]
      constructor
      · rintro rfl
        exact .inl ⟨rfl, rfl⟩
      · rintro (⟨-, rfl⟩ | later)
        · rfl
        · exact absurd (List.mem_map.mpr ⟨_, later, rfl⟩) distinct.1
    · have notHere : (name == key) = false := beq_eq_false_iff_ne.mpr same
      rw [List.lookup_cons, notHere, List.mem_cons, Prod.mk.injEq]
      simp only [same, false_and, false_or]
      exact ih distinct.2

theorem exists_of_forall₂ {α β : Type} {relation : α → β → Prop} {items : List α}
    {others : List β} (each : List.Forall₂ relation items others) {item : α}
    (member : item ∈ items) : ∃ other ∈ others, relation item other := by
  induction each with
  | nil => exact absurd member List.not_mem_nil
  | cons related _ ih =>
    rcases List.mem_cons.mp member with rfl | later
    · exact ⟨_, List.mem_cons_self, related⟩
    · obtain ⟨other, isOther, laterRelated⟩ := ih later
      exact ⟨other, List.mem_cons_of_mem _ isOther, laterRelated⟩

theorem lookup_of_remapped {fields written : List (String × Value σ)}
    (distinct : (fields.map Prod.fst).Nodup)
    (remapped : Remapped (.document fields) (.document written)) {name : String}
    (found : fields.lookup name = some value) :
    ∃ other, written.lookup name = some other ∧ Remapped value other := by
  rw [lookup_eq_some_iff distinct] at found
  obtain ⟨kept, _, same, each, order⟩ := remapped_document_iff.mp remapped
  obtain rfl := Value.document.inj same
  rw [lastWins_of_nodup distinct] at each
  obtain ⟨⟨_, other⟩, member, rfl, valueRemapped⟩ := exists_of_forall₂ each found
  exact ⟨other, (lookup_eq_some_iff (nodup_of_remapped remapped) _ _).mpr
    (order.mem_iff.mp member), valueRemapped⟩

/-- Each writing of the value under a name is part of a writing of the document. -/
theorem exists_remapped_lookup
    (distinct : (fields.map Prod.fst).Nodup) {name : String} {value other : Value σ}
    (found : fields.lookup name = some value) (remapped : Remapped value other) :
    ∃ written, Remapped (.document fields) (.document written) ∧
      written.lookup name = some other := by
  have each : ∀ field ∈ fields, ∃ written, FieldRemapped field written ∧
      (field.1 = name → written.2 = other) := by
    rintro ⟨key, inner⟩ member
    by_cases same : key = name
    · subst same
      have isValue := (lookup_eq_some_iff distinct key inner).mpr member
      obtain rfl := Option.some.inj (isValue.symm.trans found)
      exact ⟨(key, other), ⟨rfl, remapped⟩, fun _ => rfl⟩
    · obtain ⟨written, innerRemapped⟩ := exists_remapped inner
      exact ⟨(key, written), ⟨rfl, innerRemapped⟩, fun isName => absurd isName same⟩
  obtain ⟨written, all⟩ := forall₂_of_exists each
  have rewritten : Remapped (.document fields) (.document written) := by
    refine remapped_document_iff.mpr ⟨written, written, rfl, ?_, .refl _⟩
    rw [lastWins_of_nodup distinct]
    exact all.imp fun _ _ related => related.1
  refine ⟨written, rewritten, ?_⟩
  rw [lookup_eq_some_iff distinct] at found
  obtain ⟨⟨key, inner⟩, member, ⟨rfl, -⟩, isOther⟩ := exists_of_forall₂ all found
  obtain rfl := isOther rfl
  exact (lookup_eq_some_iff (nodup_of_remapped rewritten) _ _).mpr member

end DbBackup.Lib.FieldOrder
