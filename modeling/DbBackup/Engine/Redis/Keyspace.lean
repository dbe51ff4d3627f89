import DbBackup.Engine.Redis.KeyReplay

/-!
Owns the dump of a whole keyspace that stays as it is, and its restore into an empty database.

Contract: `restoresAs_iff`. The restore gives back the keyspace exactly when every line fits into
the scanner's buffer and, for every key, the commands of its blocks give back its value.
Does not own: for which values they do.
-/

set_option linter.all false

namespace DbBackup.Engine.Redis.Dump

open Lib Lib.GoString Lib.LineScan

variable {Score : Type} {libs : Libraries Score}

/-! ### The banner -/

/-- The texts of the comments before the first key. -/
structure BannerTexts where
  version : String
  dumped : String
  detail : String
  database : Nat

def BannerTexts.lines (texts : BannerTexts) : List String :=
  ["# db-backup | Redis | " ++ texts.version, "# Dumped: " ++ texts.dumped,
    "# " ++ texts.detail, "# Database: " ++ toString texts.database, "#", ""]

/-- Texts of one line each, that are shorter than the scanner's buffer. -/
structure Banner extends BannerTexts where
  oneLine : ∀ line ∈ toBannerTexts.lines, OneLine line
  fits : ∀ line ∈ toBannerTexts.lines, Fits line

theorem hasPrefix_trimmed {raw : String} (comment : hasPrefix raw "#" = true) :
    hasPrefix (trimSpace (trimSuffix raw "\r")) "#" = true := by
  have firm : Firm "#" := by decide
  have kept : ∃ rest, trimSuffix raw "\r" = "#" ++ rest := by
    obtain ⟨rest, shape⟩ := (hasPrefix_iff _ _).mp comment
    rcases trimSuffix_cases raw "\r" with same | whole
    · exact ⟨rest, same.trans shape⟩
    · rw [whole] at shape
      have chars := congrArg String.toList shape
      rw [String.toList_append, String.toList_append] at chars
      cases front : (trimSuffix raw "\r").toList with
      | nil =>
        rw [front] at chars
        exact absurd (List.cons_eq_cons.mp chars).1 (by decide)
      | cons c behind =>
        rw [front, List.cons_append] at chars
        have isHash : c = '#' := (List.cons_eq_cons.mp chars).1
        refine ⟨String.ofList behind, String.toList_injective ?_⟩
        simp [front, isHash]
  obtain ⟨rest, shape⟩ := kept
  obtain ⟨trimmed, isTrimmed⟩ := trimSpace_append firm rest
  rw [shape, isTrimmed]
  exact (hasPrefix_iff _ _).mpr ⟨trimmed, rfl⟩

theorem hasPrefix_append {start : String} (comment : hasPrefix start "#" = true) (rest : String) :
    hasPrefix (start ++ rest) "#" = true := by
  obtain ⟨behind, rfl⟩ := (hasPrefix_iff _ _).mp comment
  exact (hasPrefix_iff _ _).mpr ⟨behind ++ rest, String.append_assoc⟩

theorem restoreOne_banner {now : Nat} {sent : Sent} (banner : Banner) (progress : Restoring Score)
    {line : String} (mem : line ∈ banner.lines) :
    restoreOne libs now sent progress line = progress := by
  have skipped : trimSpace (trimSuffix line "\r") = "" ∨
      hasPrefix (trimSpace (trimSuffix line "\r")) "#" = true := by
    simp only [BannerTexts.lines, List.mem_cons, List.not_mem_nil, or_false] at mem
    rcases mem with rfl | rfl | rfl | rfl | rfl | rfl
    · exact .inr (hasPrefix_trimmed (hasPrefix_append (by decide) _))
    · exact .inr (hasPrefix_trimmed (hasPrefix_append (by decide) _))
    · exact .inr (hasPrefix_trimmed (hasPrefix_append (by decide) _))
    · exact .inr (hasPrefix_trimmed (hasPrefix_append (by decide) _))
    · exact .inr (by decide)
    · exact .inl (by decide)
  unfold restoreOne
  dsimp only
  rw [if_pos skipped]

theorem restoreAll_banner {now : Nat} {sent : Sent} (banner : Banner) (progress : Restoring Score)
    {lines : List String} (inBanner : ∀ line ∈ lines, line ∈ banner.lines) (rest : List String) :
    restoreAll libs now sent progress (lines ++ rest) =
      restoreAll libs now sent progress rest := by
  induction lines with
  | nil => rfl
  | cons line lines ih =>
    obtain ⟨first, others⟩ := List.forall_mem_cons.mp inBanner
    rw [List.cons_append, restoreAll, if_pos (banner.fits line first),
      restoreOne_banner banner progress first, ih others]

/-! ### The dump of a keyspace -/

/-- A keyspace and the pages that `SCAN` returns of it. A key can be returned more than once. The
client gives a time to live as a duration. -/
structure Keyspace (libs : Libraries Score) where
  held : String → Option (Value Score)
  ttl : String → Int
  pages : List (List String)
  valid : ∀ key value, held key = some value → value.Valid libs
  ttl_le : ∀ key, ttl key ≤ 9223372036
  returned : ∀ key ∈ pages.flatten, ∃ value, held key = some value
  complete : ∀ key value, held key = some value → key ∈ pages.flatten

namespace Keyspace

variable (space : Keyspace libs)

def ttlSec (key : String) : Int := if space.ttl key < 0 then 0 else space.ttl key

theorem ttlSec_le (key : String) : space.ttlSec key ≤ 9223372036 := by
  unfold ttlSec
  split
  · decide
  · exact space.ttl_le key

/-- The keys as they are dumped, the `i`-th with the `i`-th order. -/
def numbered : List (String × Nat) := space.pages.flatten.zipIdx

def scan (orders : Nat → Order) (item : String × Nat) : Scanned Score :=
  ⟨item.1, fun _ => space.held item.1, space.ttl item.1, orders item.2⟩

def scanned (orders : Nat → Order) : List (Scanned Score) := space.numbered.map (space.scan orders)

def blockLines (orders : Nat → Order) (item : String × Nat) : List Line :=
  match space.held item.1 with
  | some value =>
    keyLines libs.toFormats (orders item.2) item.1 (space.ttlSec item.1) value
  | none => []

def blockCommands (now : Nat) (orders : Nat → Order) (item : String × Nat) :
    List (Command Score) :=
  match space.held item.1 with
  | some value => keyCommands now item.1 (space.ttlSec item.1) (value.reorder (orders item.2))
  | none => []

theorem dump_items (orders : Nat → Order) {items : List (String × Nat)}
    (returned : ∀ item ∈ items, ∃ value, space.held item.1 = some value) :
    dump libs.toFormats (items.map (space.scan orders)) =
      ⟨items.flatMap (space.blockLines orders), []⟩ := by
  induction items with
  | nil => rfl
  | cons item items ih =>
    obtain ⟨⟨value, isHeld⟩, others⟩ := List.forall_mem_cons.mp returned
    have own : dumpKey libs.toFormats (orders item.2) (fun _ => space.held item.1)
        (space.ttl item.1) item.1 = .ok (space.blockLines orders item) := by
      unfold blockLines
      rw [isHeld]
      exact dumpKey_static _ _ _ _ (space.valid _ _ isHeld).kept
    rw [List.map_cons, dump_cons_ok libs.toFormats own, ih others,
      List.flatMap_cons]

theorem held_numbered {item : String × Nat} (mem : item ∈ space.numbered) :
    ∃ value, space.held item.1 = some value :=
  space.returned _ (List.fst_mem_of_mem_zipIdx mem)

theorem reads_items (now : Nat) (orders : Nat → Order) (items : List (String × Nat)) :
    List.Forall₂ (Reads libs now) (items.flatMap (space.blockLines orders))
      (items.flatMap (space.blockCommands now orders)) := by
  induction items with
  | nil => exact .nil
  | cons item items ih =>
    rw [List.flatMap_cons, List.flatMap_cons]
    refine List.rel_append ?_ ih
    unfold blockLines blockCommands
    cases isHeld : space.held item.1 with
    | none => exact .nil
    | some value =>
      dsimp only
      rw [keyLines_reorder]
      exact reads_keyLines item.1 (space.ttlSec_le _) ((space.valid _ _ isHeld).reorder _)

/-- What `Dump` writes. -/
def dumpText (banner : Banner) (orders : Nat → Order) : String :=
  joinLines (banner.lines ++ (dump libs.toFormats (space.scanned orders)).lines.map Line.render)

/-- The dump succeeds, and so does its restore, with every key's value. -/
def RestoresAs (banner : Banner) (orders : Nat → Order) (now : Nat) (sent : Sent) : Prop :=
  dumpError libs.toFormats (space.scanned orders) = none ∧
    ∃ after, restoreText libs now sent (space.dumpText banner orders) = (after, none) ∧
      ∀ key value, space.held key = some value →
        ∃ held, after.data key = some held ∧ held.value.Same value

/-! ### The commands of one key -/

/-- The commands on one key, as they are sent. -/
def sentOn (now : Nat) (orders : Nat → Order) (sent : Sent) (key : String) :
    List (Command Score) :=
  (sendAll sent 0 (space.numbered.flatMap (space.blockCommands now orders))).filter
    fun cmd => commandKey cmd = key

/-- They are the blocks of its dumps, one for each time it was returned. -/
theorem filter_blocks (key : String) {now : Nat} {sent : Sent} {orders : Nat → Order}
    {items : List (String × Nat)} {cmds : List (Command Score)}
    (sentAs : List.Forall₂ (SentAs sent) (items.flatMap (space.blockCommands now orders)) cmds) :
    ∃ blocks : List (List (Command Score)),
      cmds.filter (fun cmd => commandKey cmd = key) = blocks.flatten ∧
      blocks.length = (items.map Prod.fst).count key ∧
      ∀ block ∈ blocks, ∃ i, List.Forall₂ (SentAs sent) (space.blockCommands now orders (key, i)) block := by
  induction items generalizing cmds with
  | nil =>
    rw [List.forall₂_nil_left_iff.mp sentAs]
    exact ⟨[], rfl, rfl, nofun⟩
  | cons item items ih =>
    rw [List.flatMap_cons] at sentAs
    obtain ⟨own, rest, ownSent, restSent, rfl⟩ := forall₂_append_left sentAs
    obtain ⟨blocks, isRest, many, all⟩ := ih restSent
    have keys : ∀ cmd ∈ own, commandKey cmd = item.1 := by
      refine commandKey_of_sent ownSent fun cmd mem => ?_
      unfold blockCommands at mem
      split at mem
      · exact commandKey_keyCommands mem
      · cases mem
    rw [List.filter_append, isRest]
    by_cases same : item.1 = key
    · subst same
      refine ⟨own :: blocks, ?_, ?_, List.forall_mem_cons.mpr ⟨⟨item.2, ownSent⟩, all⟩⟩
      · rw [List.filter_eq_self.mpr fun cmd mem => decide_eq_true (keys cmd mem),
          List.flatten_cons]
      · rw [List.length_cons, many, List.map_cons, List.count_cons_self]
    · refine ⟨blocks, ?_, ?_, all⟩
      · rw [List.filter_eq_nil_iff.mpr fun cmd mem => by simpa [keys cmd mem] using same,
          List.nil_append]
      · rw [many, List.map_cons, List.count_cons_of_ne same]

theorem sentOn_of_missing {key : String} (missing : space.held key = none) (now : Nat)
    (orders : Nat → Order) (sent : Sent) : space.sentOn now orders sent key = [] := by
  obtain ⟨blocks, shape, -, all⟩ :=
    space.filter_blocks key (@forall₂_sendAll _ sent 0 (space.numbered.flatMap _))
  refine shape.trans (List.flatten_eq_nil_iff.mpr fun block mem => ?_)
  obtain ⟨i, sentAs⟩ := all block mem
  rw [blockCommands, missing] at sentAs
  exact List.forall₂_nil_left_iff.mp sentAs

theorem blocks_sentOn {key : String} {value : Value Score} (isHeld : space.held key = some value)
    (now : Nat) (orders : Nat → Order) (sent : Sent) :
    ∃ blocks : List (List (Command Score)), space.sentOn now orders sent key = blocks.flatten ∧
      blocks.length = space.pages.flatten.count key ∧
      ∀ block ∈ blocks, Block sent now key (space.ttlSec key) value block := by
  obtain ⟨blocks, shape, many, all⟩ :=
    space.filter_blocks key (@forall₂_sendAll _ sent 0 (space.numbered.flatMap _))
  refine ⟨blocks, shape, ?_, fun block mem => ?_⟩
  · rw [many, numbered, List.zipIdx_map_fst]
  · obtain ⟨i, sentAs⟩ := all block mem
    refine ⟨orders i, ?_⟩
    simpa only [blockCommands, isHeld] using sentAs

/-! ### The restore of the whole dump -/

theorem dump_scanned (orders : Nat → Order) : dump libs.toFormats (space.scanned orders) =
    ⟨space.numbered.flatMap (space.blockLines orders), []⟩ :=
  space.dump_items orders fun _ mem => space.held_numbered mem

theorem dumpError_scanned (orders : Nat → Order) :
    dumpError libs.toFormats (space.scanned orders) = none := by
  unfold dumpError
  rw [dump_scanned]
  rfl

theorem restoreText_dumpText (banner : Banner) (orders : Nat → Order) (now : Nat) (sent : Sent) :
    restoreText libs now sent (space.dumpText banner orders) =
      restoreAll libs now sent {}
        ((space.numbered.flatMap (space.blockLines orders)).map Line.render) := by
  have oneLine : ∀ line ∈ banner.lines ++
      (space.numbered.flatMap (space.blockLines orders)).map Line.render, OneLine line := by
    refine List.forall_mem_append.mpr ⟨banner.oneLine, fun line mem => ?_⟩
    obtain ⟨own, ownMem, rfl⟩ := List.mem_map.mp mem
    obtain ⟨cmd, -, reads⟩ :=
      forall₂_exists (space.reads_items now orders space.numbered) ownMem
    exact reads.readable.oneLine
  rw [restoreText, dumpText, dump_scanned, textLines_joinLines oneLine,
    restoreAll_banner banner _ fun _ mem => mem]

/-- The restore gives back the keyspace exactly when all lines fit and the commands on each key
give back its value. -/
theorem restoresAs_iff (banner : Banner) (orders : Nat → Order) (now : Nat) (sent : Sent) :
    space.RestoresAs banner orders now sent ↔
      (∀ item ∈ space.numbered, ∀ line ∈ space.blockLines orders item, Fits line.render) ∧
      ∀ key value, space.held key = some value →
        ∃ held, replay libs now (space.sentOn now orders sent key) none = some (some held) ∧
          held.value.Same value := by
  have reads := space.reads_items now orders space.numbered
  unfold RestoresAs
  rw [restoreText_dumpText]
  constructor
  · rintro ⟨-, after, restored, values⟩
    obtain ⟨fits, ran⟩ := (restoreAll_ok_iff reads rfl).mp ⟨after, restored, rfl⟩
    have onKey := (Keyed.runAll_eq_some_iff commandKey (applyTo libs now)).mp ran
    refine ⟨fun item mem line inBlock => fits line (List.mem_flatMap.mpr ⟨item, mem, inBlock⟩), ?_⟩
    intro key value isHeld
    obtain ⟨held, isAfter, same⟩ := values key value isHeld
    exact ⟨held, (onKey key).trans (congrArg some isAfter), same⟩
  · rintro ⟨fits, values⟩
    have onKey : ∀ key, ∃ own, replay libs now (space.sentOn now orders sent key) none = some own ∧
        ∀ value, space.held key = some value → ∃ held, own = some held ∧ held.value.Same value := by
      intro key
      cases isHeld : space.held key with
      | none => exact ⟨none, by rw [space.sentOn_of_missing isHeld]; rfl, nofun⟩
      | some value =>
        obtain ⟨held, replayed, same⟩ := values key value isHeld
        refine ⟨some held, replayed, ?_⟩
        rintro other ⟨⟩
        exact ⟨held, rfl, same⟩
    choose own replayed values using onKey
    have ran := (@Keyed.runAll_eq_some_iff _ _ _ _ commandKey (applyTo libs now) _
      (fun _ => none) own).mpr replayed
    have allFit : ∀ line ∈ space.numbered.flatMap (space.blockLines orders), Fits line.render := by
      intro line mem
      obtain ⟨item, itemMem, inBlock⟩ := List.mem_flatMap.mp mem
      exact fits item itemMem line inBlock
    obtain ⟨after, restored, isData⟩ :=
      (@restoreAll_ok_iff _ libs now sent _ _ reads {} rfl own).mpr ⟨allFit, ran⟩
    exact ⟨space.dumpError_scanned orders, after, restored, fun key value isHeld =>
      isData ▸ values key value isHeld⟩

end Keyspace

end DbBackup.Engine.Redis.Dump
