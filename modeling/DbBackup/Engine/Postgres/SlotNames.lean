import DbBackup.Lib.GoString

/-!
Owns the names of the logical replication slots: `SlotName` and `EnsureLogicalSlots` of
`supported/database/engine/postgres/incremental.go`.

A slot is named after the database with every other character replaced by an underscore,
and cut after 63 characters, which are one byte each. Names of slots are shared by all
databases of a cluster.

Contract: `slotsApart_iff`. Two databases keep their slots apart, under names that the server
takes, exactly when their names are told apart by the letters and digits of the first 49
characters, and have no capital letter there.
-/

set_option linter.all false

namespace DbBackup.Engine.Postgres.SlotNames

/-! ### Names -/

inductive Kind where
  | incr
  | diff
deriving DecidableEq

def Kind.text : Kind → String
  | .incr => "incr"
  | .diff => "diff"

def isWord (c : Char) : Bool :=
  ('a' ≤ c && c ≤ 'z') || ('A' ≤ c && c ≤ 'Z') || ('0' ≤ c && c ≤ '9')

def slotChar (c : Char) : Char := if isWord c then c else '_'

/-- `NAMEDATALEN - 1`. -/
def maxName : Nat := 63

def slotName (dbName : String) (kind : Kind) : String :=
  let name := ("dbbackup_" ++ kind.text ++ "_" ++ dbName).toList.map slotChar
  if maxName < name.length then String.ofList (name.take maxName) else String.ofList name

/-- What PostgreSQL takes as the name of a slot. -/
def isSlotChar (c : Char) : Bool := ('a' ≤ c && c ≤ 'z') || ('0' ≤ c && c ≤ '9') || c = '_'

def Accepted (name : String) : Prop :=
  name ≠ "" ∧ name.utf8ByteSize ≤ maxName ∧ ∀ c ∈ name.toList, isSlotChar c = true

instance (name : String) : Decidable (Accepted name) :=
  @instDecidableAnd _ _ inferInstance
    (@instDecidableAnd _ _ inferInstance (List.decidableBAll _ name.toList))

/-! ### Slots of a cluster -/

structure Slot where
  name : String
  /-- The database it was made for. -/
  madeFor : String
deriving DecidableEq

/-- `pg_drop_replication_slot`; its error is left out by the caller. -/
def drop (name : String) (slots : List Slot) : List Slot := slots.filter fun slot => slot.name ≠ name

/-- `pg_create_logical_replication_slot`; none is an error. -/
def create (name dbName : String) (slots : List Slot) : Option (List Slot) :=
  if Accepted name ∧ ∀ slot ∈ slots, slot.name ≠ name then some (⟨name, dbName⟩ :: slots) else none

/-- One turn of the loop of `EnsureLogicalSlots`, and whether it went well. -/
def ensureSlot (dbName : String) (kind : Kind) (slots : List Slot) : List Slot × Bool :=
  let dropped := drop (slotName dbName kind) slots
  match create (slotName dbName kind) dbName dropped with
  | some made => (made, true)
  | none => (dropped, false)

def ensureLogicalSlots (dbName : String) (slots : List Slot) : List Slot × Bool :=
  let (first, ok) := ensureSlot dbName .incr slots
  if ok then ensureSlot dbName .diff first else (first, false)

/-- Different names, taken by the server, and neither run drops a slot of the other database. -/
structure SlotsApart (a b : String) : Prop where
  distinct : ∀ ka kb, slotName a ka ≠ slotName b kb
  kinds : slotName a .incr ≠ slotName a .diff ∧ slotName b .incr ≠ slotName b .diff
  accepted : ∀ kind, Accepted (slotName a kind) ∧ Accepted (slotName b kind)
  kept : ∀ slots kind,
    (⟨slotName b kind, b⟩ ∈ slots → ⟨slotName b kind, b⟩ ∈ (ensureLogicalSlots a slots).1) ∧
      (⟨slotName a kind, a⟩ ∈ slots → ⟨slotName a kind, a⟩ ∈ (ensureLogicalSlots b slots).1)

/-- The part of a database's name that the slot's name has room for. -/
def roomForName : Nat := 49

/-- Two places that the slot's name shows alike: the same character, or two that are replaced. -/
def Alike : Option Char → Option Char → Prop
  | none, none => True
  | some c, some d => c = d ∨ (isWord c = false ∧ isWord d = false)
  | _, _ => False

def Confusable (a b : String) : Prop :=
  ∀ i < roomForName, Alike (a.toList[i]?) (b.toList[i]?)

def NoCapital (name : String) : Prop :=
  ∀ i < roomForName, ∀ c, name.toList[i]? = some c → ¬ ('A' ≤ c ∧ c ≤ 'Z')

/-! ### The shape of a name -/

def frontOf (kind : Kind) : List Char :=
  match kind with
  | .incr => "dbbackup_incr_".toList
  | .diff => "dbbackup_diff_".toList

theorem front_mapped (kind : Kind) :
    ("dbbackup_" ++ kind.text ++ "_").toList.map slotChar = frontOf kind := by
  cases kind with
  | incr => decide
  | diff => decide

theorem length_frontOf (kind : Kind) : (frontOf kind).length = 14 := by
  cases kind with
  | incr => decide
  | diff => decide

variable (dbName : String)

theorem toList_slotName (kind : Kind) : (slotName dbName kind).toList =
      frontOf kind ++ (dbName.toList.map slotChar).take roomForName := by
  have whole : ("dbbackup_" ++ kind.text ++ "_" ++ dbName).toList.map slotChar =
      frontOf kind ++ dbName.toList.map slotChar := by
    rw [String.toList_append, List.map_append, front_mapped]
  have cut : (frontOf kind ++ dbName.toList.map slotChar).take maxName =
      frontOf kind ++ (dbName.toList.map slotChar).take roomForName := by
    rw [List.take_append, length_frontOf, List.take_of_length_le]
    · rfl
    · rw [length_frontOf]
      decide
  rw [slotName, whole]
  split
  · rw [String.toList_ofList, cut]
  · next short =>
      rw [String.toList_ofList, ← cut, List.take_of_length_le (Nat.le_of_not_lt short)]

theorem slotChar_eq_iff {c d : Char} :
    slotChar c = slotChar d ↔ c = d ∨ (isWord c = false ∧ isWord d = false) := by
  have underscore : isWord '_' = false := by decide
  rw [slotChar, slotChar]
  by_cases cWord : isWord c = true
  · by_cases dWord : isWord d = true
    · simp [cWord, dWord]
    · simp only [cWord, dWord, if_true, Bool.false_eq_true, if_false]
      constructor
      · rintro rfl
        rw [underscore] at cWord
        exact absurd cWord (by decide)
      · rintro (rfl | ⟨notWord, -⟩)
        · exact absurd cWord dWord
        · exact absurd notWord (by decide)
  · by_cases dWord : isWord d = true
    · simp only [cWord, dWord, if_true, Bool.false_eq_true, if_false]
      constructor
      · rintro rfl
        rw [underscore] at dWord
        exact absurd dWord (by decide)
      · rintro (rfl | ⟨-, notWord⟩)
        · exact absurd dWord cWord
        · exact absurd notWord (by decide)
    · simp [cWord, dWord]

theorem alike_iff (x y : Option Char) : Alike x y ↔ x.map slotChar = y.map slotChar := by
  cases x with
  | none =>
    cases y with
    | none => simp [Alike]
    | some d => simp [Alike]
  | some c =>
    cases y with
    | none => simp [Alike]
    | some d => simp only [Alike, Option.map_some, Option.some.injEq, slotChar_eq_iff]

theorem confusable_iff (a b : String) : Confusable a b ↔
      (a.toList.map slotChar).take roomForName = (b.toList.map slotChar).take roomForName := by
  constructor
  · intro confusable
    refine List.ext_getElem? fun i => ?_
    by_cases inRoom : i < roomForName
    · rw [List.getElem?_take_of_lt inRoom, List.getElem?_take_of_lt inRoom, List.getElem?_map,
        List.getElem?_map]
      exact (alike_iff _ _).mp (confusable i inRoom)
    · rw [List.getElem?_eq_none (by rw [List.length_take]; omega),
        List.getElem?_eq_none (by rw [List.length_take]; omega)]
  · intro same i inRoom
    have at_ := congrArg (fun chars => chars[i]?) same
    simp only [List.getElem?_take_of_lt inRoom, List.getElem?_map] at at_
    exact (alike_iff _ _).mpr at_

theorem slotName_eq_iff (a b : String) (ka kb : Kind) :
    slotName a ka = slotName b kb ↔ ka = kb ∧ Confusable a b := by
  have chars : slotName a ka = slotName b kb ↔
      (slotName a ka).toList = (slotName b kb).toList :=
    ⟨congrArg String.toList, fun same => String.toList_injective same⟩
  rw [chars, toList_slotName, toList_slotName, confusable_iff]
  constructor
  · intro same
    obtain ⟨front, rest⟩ := List.append_inj same (by rw [length_frontOf, length_frontOf])
    refine ⟨?_, rest⟩
    cases ka with
    | incr =>
      cases kb with
      | incr => rfl
      | diff => exact absurd front (by decide)
    | diff =>
      cases kb with
      | incr => exact absurd front (by decide)
      | diff => rfl
  · rintro ⟨rfl, rest⟩
    rw [rest]

/-! ### Names that the server takes -/

theorem isSlotChar_slotChar (c : Char) :
    isSlotChar (slotChar c) = true ↔ ¬ ('A' ≤ c ∧ c ≤ 'Z') := by
  rw [slotChar]
  by_cases capital : 'A' ≤ c ∧ c ≤ 'Z'
  · have word : isWord c = true := by simp [isWord, capital]
    have notSmall : ¬ 'a' ≤ c := by
      intro small
      exact absurd (Char.le_trans small capital.2) (by decide)
    have notDigit : ¬ c ≤ '9' := by
      intro digit
      exact absurd (Char.le_trans capital.1 digit) (by decide)
    have notUnderscore : c ≠ '_' := by
      rintro rfl
      exact absurd capital.2 (by decide)
    simp [word, isSlotChar, capital, notSmall, notDigit, notUnderscore]
  · by_cases word : isWord c = true
    · have others : isSlotChar c = true := by
        simp only [isWord, isSlotChar, Bool.or_eq_true, Bool.and_eq_true, decide_eq_true_eq]
          at word ⊢
        rcases word with (small | isCapital) | digit
        · exact .inl (.inl small)
        · exact absurd isCapital capital
        · exact .inl (.inr digit)
      simp [word, others, capital]
    · have underscore : isSlotChar '_' = true := by decide
      simp [word, underscore, capital]

theorem utf8Size_slotChar (c : Char) : (slotChar c).utf8Size = 1 := by
  rw [Char.utf8Size_eq_one_iff, slotChar]
  split
  · next word =>
      have upTo : c ≤ 'z' := by
        simp only [isWord, Bool.or_eq_true, Bool.and_eq_true, decide_eq_true_eq] at word
        rcases word with (small | capital) | digit
        · exact small.2
        · exact Char.le_trans capital.2 (by decide)
        · exact Char.le_trans digit.2 (by decide)
      have value : c.val ≤ 'z'.val := upTo
      exact UInt32.le_trans value (by decide)
  · decide

theorem size_ofList {chars : List Char} (single : ∀ c ∈ chars, c.utf8Size = 1) :
    (String.ofList chars).utf8ByteSize = chars.length := by
  induction chars with
  | nil => rfl
  | cons c rest ih =>
    have one := single c List.mem_cons_self
    rw [String.ofList_cons, String.utf8ByteSize_append,
      ih (List.forall_mem_cons.mp single).2,
      List.length_cons]
    simp only [String.utf8ByteSize_singleton, one]
    omega

theorem slotName_size (kind : Kind) : (slotName dbName kind).utf8ByteSize ≤ maxName := by
  have front : ∀ c ∈ frontOf kind, c.utf8Size = 1 := by
    intro c member
    have all : ((frontOf kind).all fun d => d.utf8Size == 1) = true := by
      cases kind with
      | incr => decide
      | diff => decide
    exact eq_of_beq (List.all_eq_true.mp all c member)
  have single : ∀ c ∈ (slotName dbName kind).toList, c.utf8Size = 1 := by
    intro c member
    rw [toList_slotName, List.mem_append] at member
    rcases member with inFront | inName
    · exact front c inFront
    · obtain ⟨d, -, rfl⟩ := List.mem_map.mp (List.mem_of_mem_take inName)
      exact utf8Size_slotChar d
  have size := size_ofList single
  rw [String.ofList_toList] at size
  rw [size, toList_slotName, List.length_append, length_frontOf, List.length_take]
  have room : roomForName = 49 := rfl
  have most : maxName = 63 := rfl
  omega

theorem accepted_iff (kind : Kind) : Accepted (slotName dbName kind) ↔ NoCapital dbName := by
  have front : ∀ c ∈ frontOf kind, isSlotChar c = true := by
    cases kind with
    | incr => exact List.all_eq_true.mp (by decide)
    | diff => exact List.all_eq_true.mp (by decide)
  constructor
  · rintro ⟨-, -, taken⟩ i inRoom c isChar
    rw [← isSlotChar_slotChar]
    refine taken _ ?_
    rw [toList_slotName]
    refine List.mem_append_right _ (List.mem_of_getElem? (i := i) ?_)
    rw [List.getElem?_take_of_lt inRoom, List.getElem?_map, isChar]
    rfl
  · intro noCapital
    refine ⟨?_, slotName_size dbName kind, ?_⟩
    · intro isEmpty
      have lengths := congrArg (fun name => name.toList.length) isEmpty
      simp only [toList_slotName, List.length_append, length_frontOf] at lengths
      have none_ : "".toList.length = 0 := rfl
      omega
    · intro c member
      rw [toList_slotName, List.mem_append] at member
      rcases member with inFront | inName
      · exact front c inFront
      · obtain ⟨i, isChar⟩ := List.mem_iff_getElem?.mp inName
        have inRoom : i < roomForName := by
          have bound := (List.getElem?_eq_some_iff.mp isChar).1
          rw [List.length_take] at bound
          omega
        rw [List.getElem?_take_of_lt inRoom, List.getElem?_map] at isChar
        obtain ⟨d, isSource, rfl⟩ := Option.map_eq_some_iff.mp isChar
        exact (isSlotChar_slotChar d).mpr (noCapital i inRoom d isSource)

/-! ### Runs -/

variable {slots : List Slot} {slot : Slot}

theorem mem_drop {name : String} (member : slot ∈ slots)
    (other : slot.name ≠ name) : slot ∈ drop name slots :=
  List.mem_filter.mpr ⟨member, decide_eq_true other⟩

theorem ensureSlot_fst (kind : Kind) (slots : List Slot) : (ensureSlot dbName kind slots).1 =
      (create (slotName dbName kind) dbName (drop (slotName dbName kind) slots)).getD
        (drop (slotName dbName kind) slots) := by
  unfold ensureSlot
  generalize slotName dbName kind = name
  dsimp only
  cases create name dbName (drop name slots) with
  | none => rfl
  | some made => rfl

theorem ensureLogicalSlots_fst (slots : List Slot) : (ensureLogicalSlots dbName slots).1 =
      if (ensureSlot dbName .incr slots).2 then
        (ensureSlot dbName .diff (ensureSlot dbName .incr slots).1).1
      else (ensureSlot dbName .incr slots).1 := by
  unfold ensureLogicalSlots
  generalize ensureSlot dbName .incr slots = made
  dsimp only
  obtain ⟨first, ok⟩ := made
  cases ok with
  | false => simp
  | true => simp

theorem mem_create {name dbName : String}
    (member : slot ∈ slots) : slot ∈ (create name dbName slots).getD slots := by
  rw [create]
  split
  · exact List.mem_cons_of_mem _ member
  · exact member

theorem mem_ensureSlot {dbName : String} {kind : Kind} {slots : List Slot} {slot : Slot}
    (member : slot ∈ slots) (other : slot.name ≠ slotName dbName kind) :
    slot ∈ (ensureSlot dbName kind slots).1 := by
  rw [ensureSlot_fst]
  exact mem_create (mem_drop member other)

theorem mem_ensureLogicalSlots {dbName : String}
    (member : slot ∈ slots) (other : ∀ kind, slot.name ≠ slotName dbName kind) :
    slot ∈ (ensureLogicalSlots dbName slots).1 := by
  have first := @mem_ensureSlot dbName .incr slots slot member (other .incr)
  rw [ensureLogicalSlots_fst]
  split
  · exact mem_ensureSlot first (other .diff)
  · exact first

/-! ### Main results -/

/-- Two databases keep their slots apart, under names that the server takes, exactly when a
letter or digit in the first 49 characters tells their names apart and no capital letter stands
there. -/
theorem slotsApart_iff (a b : String) :
    SlotsApart a b ↔ ¬ Confusable a b ∧ NoCapital a ∧ NoCapital b := by
  constructor
  · intro apart
    refine ⟨?_, ?_, ?_⟩
    · intro confusable
      exact apart.distinct .incr .incr ((slotName_eq_iff a b .incr .incr).mpr ⟨rfl, confusable⟩)
    · exact (accepted_iff a .incr).mp (apart.accepted .incr).1
    · exact (accepted_iff b .incr).mp (apart.accepted .incr).2
  · rintro ⟨distinct, aSmall, bSmall⟩
    have differ : ∀ ka kb, slotName a ka ≠ slotName b kb := by
      intro ka kb same
      exact distinct ((slotName_eq_iff a b ka kb).mp same).2
    have kinds : ∀ dbName, slotName dbName .incr ≠ slotName dbName .diff := by
      intro dbName same
      exact absurd ((slotName_eq_iff dbName dbName .incr .diff).mp same).1 (by decide)
    refine ⟨differ, ⟨kinds a, kinds b⟩, ?_, ?_⟩
    · exact fun kind => ⟨(accepted_iff a kind).mpr aSmall, (accepted_iff b kind).mpr bSmall⟩
    · intro slots kind
      refine ⟨fun member => ?_, fun member => ?_⟩
      · refine mem_ensureLogicalSlots member fun other => ?_
        dsimp only
        exact (differ other kind).symm
      · refine mem_ensureLogicalSlots member fun other => ?_
        dsimp only
        exact differ kind other

/-- The slots of `shop-eu` are dropped by a run for `shop_eu`. -/
theorem shop_slots_shared :
    ¬ SlotsApart "shop-eu" "shop_eu" ∧
      ⟨slotName "shop-eu" .incr, "shop-eu"⟩ ∉
        (ensureLogicalSlots "shop_eu" [⟨slotName "shop-eu" .incr, "shop-eu"⟩]).1 := by
  have same : slotName "shop-eu" .incr = slotName "shop_eu" .incr := by decide +kernel
  have dropped : (ensureLogicalSlots "shop_eu" [⟨slotName "shop-eu" .incr, "shop-eu"⟩]).1.all
      (fun slot => slot.madeFor != "shop-eu") = true := by decide +kernel
  refine ⟨fun apart => apart.distinct .incr .incr same, fun member => ?_⟩
  exact absurd (List.all_eq_true.mp dropped _ member) (by decide)

end DbBackup.Engine.Postgres.SlotNames
