import DbBackup.Lib.GoString
import DbBackup.Lib.Upsert
import Mathlib.Data.String.Basic

/-!
Owns `MergePhysicalTarFiles`, `mergeSets`, `mergeBucket` and `writeMerged` of
`internal/database/engine/influx/restore_physical.go`: the tars of a physical
backup chain become one tar with one manifest.

Contract: the merged manifest has each shard of the chain once, with the entry of
the last manifest that has it, and each file it names is written once with the
bytes of the last tar that holds a file of that name (`merged_latest`). The two
go by different keys: a later tar that reuses a file name takes the place of an
older shard's file.

Does not own files that cannot be opened, and reads the manifest of a tar through
a decoder that is a parameter.
-/

set_option linter.all false

namespace DbBackup.Engine.Influx

open Lib.GoString Lib.Upsert

/-! ### Manifests -/

structure PhysicalFileEntry where
  fileName : String := ""
  size : Int := 0
  compression : Int := 0
deriving DecidableEq

structure PhysicalShardOwner where
  nodeID : Int
deriving DecidableEq

structure PhysicalShardEntry where
  id : Int
  shardOwners : List PhysicalShardOwner := []
  file : PhysicalFileEntry
deriving DecidableEq

structure PhysicalShardGroup where
  id : Int
  startTime : Int := 0
  endTime : Int := 0
  deletedAt : Option Int := none
  truncatedAt : Option Int := none
  shards : List PhysicalShardEntry

structure PhysicalSubscription where
  name : String
  mode : String
  destinations : List String

structure PhysicalRetentionPolicy where
  name : String
  replicaN : Int := 1
  duration : Int := 0
  shardGroupDuration : Int := 0
  shardGroups : List PhysicalShardGroup
  subscriptions : List PhysicalSubscription := []

structure PhysicalBucketEntry where
  organizationID : String := ""
  organizationName : String
  bucketID : String := ""
  bucketName : String
  description : Option String := none
  defaultRetentionPolicy : String := ""
  retentionPolicies : List PhysicalRetentionPolicy

def physicalManifestVersion : Int := 2

def physicalManifestExtension : String := "manifest"

structure PhysicalManifest where
  version : Int := physicalManifestVersion
  kv : PhysicalFileEntry := {}
  sql : Option PhysicalFileEntry := none
  buckets : List PhysicalBucketEntry := []

/-! ### Merging manifests -/

def mergeShards (dst src : List PhysicalShardEntry) : List PhysicalShardEntry :=
  putAll PhysicalShardEntry.id (fun _ ssh => ssh) dst src

def mergeShardGroup (dsg ssg : PhysicalShardGroup) : PhysicalShardGroup :=
  { dsg with shards := mergeShards dsg.shards ssg.shards }

def mergeRetentionPolicy (drp srp : PhysicalRetentionPolicy) : PhysicalRetentionPolicy :=
  { drp with
    shardGroups := putAll PhysicalShardGroup.id mergeShardGroup drp.shardGroups srp.shardGroups }

def mergeBucket (dst src : PhysicalBucketEntry) : PhysicalBucketEntry :=
  { dst with
    retentionPolicies := putAll PhysicalRetentionPolicy.name mergeRetentionPolicy
      dst.retentionPolicies src.retentionPolicies }

def bucketKey (b : PhysicalBucketEntry) : String := b.organizationName ++ "/" ++ b.bucketName

/-- One turn of the loop of `mergeSets`. -/
def mergeManifest (merged m : PhysicalManifest) : PhysicalManifest :=
  { merged with
    kv := if merged.kv.fileName = "" then m.kv else merged.kv
    sql := merged.sql.or m.sql
    buckets := putAll bucketKey mergeBucket merged.buckets m.buckets }

def mergeManifests (merged : PhysicalManifest) :
    List PhysicalManifest → Except String PhysicalManifest
  | [] => .ok merged
  | m :: rest =>
    if m.version = physicalManifestVersion then mergeManifests (mergeManifest merged m) rest
    else .error ("influx: manifest version " ++ toString m.version ++ " (want 2)")

def isManifestName (name : String) : Bool := hasSuffix name ("." ++ physicalManifestExtension)

def mergeSets (manifests : List PhysicalManifest) (names : List String) :
    Except String (PhysicalManifest × List String) :=
  if manifests.isEmpty then .error "influx: merge set missing manifest"
  else do
    let merged ← mergeManifests {} manifests
    return (merged, (names.filter fun name => !isManifestName name).mergeSort
      fun one other => decide (one ≤ other))

/-! ### Shards by their paths -/

def shardGroupShape : Shape PhysicalShardGroup Int PhysicalShardEntry :=
  (leaves PhysicalShardEntry.id).comap PhysicalShardGroup.shards

def retentionPolicyShape : Shape PhysicalRetentionPolicy (Int × Int) PhysicalShardEntry :=
  (nested PhysicalShardGroup.id shardGroupShape).comap PhysicalRetentionPolicy.shardGroups

def bucketShape : Shape PhysicalBucketEntry (String × Int × Int) PhysicalShardEntry :=
  (nested PhysicalRetentionPolicy.name retentionPolicyShape).comap
    PhysicalBucketEntry.retentionPolicies

/-- The path of a shard: org/bucket, policy, shard group and shard. -/
abbrev ShardPath : Type := String × String × Int × Int

def manifestShape : Shape PhysicalManifest ShardPath PhysicalShardEntry :=
  (nested bucketKey bucketShape).comap PhysicalManifest.buckets

def PhysicalManifest.shards (m : PhysicalManifest) : List (ShardPath × PhysicalShardEntry) :=
  manifestShape.entries m

/-- Buckets, policies, shard groups and shards have ids of their own. -/
def PhysicalManifest.UniqueIds (m : PhysicalManifest) : Prop := manifestShape.Unique m

theorem merges_shardGroup : shardGroupShape.Merges mergeShardGroup :=
  merges_comap (merges_leaves _) fun _ _ => rfl

theorem merges_retentionPolicy : retentionPolicyShape.Merges mergeRetentionPolicy :=
  merges_comap (merges_nested merges_shardGroup fun _ _ _ => rfl) fun _ _ => rfl

theorem merges_bucket : bucketShape.Merges mergeBucket :=
  merges_comap (merges_nested merges_retentionPolicy fun _ _ _ => rfl) fun _ _ => rfl

theorem merges_manifest : manifestShape.Merges mergeManifest :=
  merges_comap (merges_nested merges_bucket fun _ _ _ => rfl) fun _ _ => rfl

theorem mergeManifests_eq {merged : PhysicalManifest} {manifests : List PhysicalManifest}
    (versions : ∀ m ∈ manifests, m.version = physicalManifestVersion) :
    mergeManifests merged manifests = .ok (manifests.foldl mergeManifest merged) := by
  induction manifests generalizing merged with
  | nil => rfl
  | cons m rest ih =>
    obtain ⟨version, restVersions⟩ := List.forall_mem_cons.mp versions
    rw [mergeManifests, if_pos version, ih restVersions, List.foldl_cons]

/-! ### The files a manifest names -/

def PhysicalManifest.shardFiles (m : PhysicalManifest) : List String :=
  m.shards.map fun shard => shard.2.file.fileName

def PhysicalManifest.kvFiles (m : PhysicalManifest) : List String :=
  if m.kv.fileName = "" then [] else [m.kv.fileName]

def PhysicalManifest.sqlFiles (m : PhysicalManifest) : List String :=
  m.sql.toList.map PhysicalFileEntry.fileName

def PhysicalManifest.fileNames (m : PhysicalManifest) : List String :=
  m.kvFiles ++ m.sqlFiles ++ m.shardFiles

theorem unique_default : ({} : PhysicalManifest).UniqueIds :=
  ⟨List.nodup_nil, fun _ member => absurd member List.not_mem_nil⟩

theorem find_default (path : ShardPath) : manifestShape.find {} path = none := rfl

theorem mem_shards_mergeManifest {merged m : PhysicalManifest} (mergedUnique : merged.UniqueIds)
    (mUnique : m.UniqueIds) {shard : ShardPath × PhysicalShardEntry}
    (member : shard ∈ (mergeManifest merged m).shards) : shard ∈ merged.shards ∨ shard ∈ m.shards := by
  have found := (manifestShape.mem_entries (merges_manifest.unique_combine mergedUnique mUnique)
    shard.1 shard.2).mp member
  rw [merges_manifest.find_combine merged mUnique] at found
  rcases Option.or_eq_some_iff.mp found with inNew | ⟨-, inOld⟩
  · exact .inr ((manifestShape.mem_entries mUnique _ _).mpr inNew)
  · exact .inl ((manifestShape.mem_entries mergedUnique _ _).mpr inOld)

variable {name : String}

theorem mem_fileNames_mergeManifest {merged m : PhysicalManifest} (mergedUnique : merged.UniqueIds)
    (mUnique : m.UniqueIds) (named : name ∈ (mergeManifest merged m).fileNames) :
    name ∈ merged.fileNames ∨ name ∈ m.fileNames := by
  unfold PhysicalManifest.fileNames at named ⊢
  rw [List.mem_append, List.mem_append] at named
  rcases named with (inKV | inSQL) | inShards
  · have which : name ∈ merged.kvFiles ∨ name ∈ m.kvFiles := by
      by_cases noKV : merged.kv.fileName = ""
      · simp only [PhysicalManifest.kvFiles, mergeManifest, noKV, ↓reduceIte] at inKV
        exact .inr inKV
      · simp only [PhysicalManifest.kvFiles, mergeManifest, noKV, ↓reduceIte] at inKV ⊢
        exact .inl inKV
    simp only [List.mem_append]
    exact which.imp (fun here => .inl (.inl here)) fun here => .inl (.inl here)
  · have which : name ∈ merged.sqlFiles ∨ name ∈ m.sqlFiles := by
      cases sql : merged.sql with
      | none =>
        simp only [PhysicalManifest.sqlFiles, mergeManifest, sql, Option.none_or] at inSQL
        exact .inr inSQL
      | some entry =>
        simp only [PhysicalManifest.sqlFiles, mergeManifest, sql, Option.some_or] at inSQL ⊢
        exact .inl inSQL
    simp only [List.mem_append]
    exact which.imp (fun here => .inl (.inr here)) fun here => .inl (.inr here)
  · obtain ⟨shard, member, rfl⟩ := List.mem_map.mp inShards
    simp only [List.mem_append]
    exact (mem_shards_mergeManifest mergedUnique mUnique member).imp
      (fun here => .inr (List.mem_map_of_mem here)) fun here => .inr (List.mem_map_of_mem here)

/-- The merged manifest names no file that no manifest names. -/
theorem mem_fileNames_merged {manifests : List PhysicalManifest}
    (unique : ∀ m ∈ manifests, m.UniqueIds) {merged : PhysicalManifest}
    (mergedUnique : merged.UniqueIds)
    (named : name ∈ (manifests.foldl mergeManifest merged).fileNames) :
    name ∈ merged.fileNames ∨ ∃ m ∈ manifests, name ∈ m.fileNames := by
  induction manifests generalizing merged with
  | nil => exact .inl named
  | cons m rest ih =>
    obtain ⟨mUnique, restUnique⟩ := List.forall_mem_cons.mp unique
    have nextUnique := merges_manifest.unique_combine mergedUnique mUnique
    rcases ih restUnique nextUnique named with inMerged | ⟨other, member, inOther⟩
    · exact (mem_fileNames_mergeManifest mergedUnique mUnique inMerged).imp_right fun inM =>
        ⟨m, List.mem_cons_self, inM⟩
    · exact .inr ⟨other, List.mem_cons_of_mem _ member, inOther⟩

/-! ### Tars -/

variable {Body : Type}

structure TarEntry (Body : Type) where
  name : String
  regular : Bool := true
  body : Body

abbrev Tar (Body : Type) : Type := List (TarEntry Body)

/-- What `MergePhysicalTarFiles` gathers while it reads the tars. -/
structure Gathered (Body : Type) where
  manifests : List PhysicalManifest := []
  byPath : String → Option (Tar Body) := fun _ => none
  names : List String := []

def readEntry (decode : Body → Option PhysicalManifest) (tar : Tar Body) (gathered : Gathered Body)
    (entry : TarEntry Body) : Except String (Gathered Body) :=
  let name := filepathBase entry.name
  if !entry.regular then .ok gathered
  else if isManifestName name then
    match decode entry.body with
    | none => .error "influx: merge manifest decode"
    | some pm => .ok { gathered with manifests := gathered.manifests ++ [pm] }
  else
    .ok { gathered with
      names := if (gathered.byPath name).isSome then gathered.names else gathered.names ++ [name]
      byPath := fun other => if other = name then some tar else gathered.byPath other }

def readTar (decode : Body → Option PhysicalManifest) (gathered : Gathered Body) (tar : Tar Body) :
    Except String (Gathered Body) :=
  tar.foldlM (readEntry decode tar) gathered

/-- The `open` of `writeMerged`: the first entry of the name in its tar. -/
def openEntry (tar : Tar Body) (name : String) : Option Body :=
  (tar.find? fun entry => entry.regular && filepathBase entry.name == name).map TarEntry.body

def writeEntry (gathered : Gathered Body) (name : String) : Except String (String × Body) :=
  match (gathered.byPath name).bind (openEntry · name) with
  | none => .error ("influx: merge re-read " ++ name)
  | some body => .ok (name, body)

def mergedManifestName : String := "merged." ++ physicalManifestExtension

def mergePhysicalTarFiles (decode : Body → Option PhysicalManifest)
    (encode : PhysicalManifest → Body) (tars : List (Tar Body)) :
    Except String (List (String × Body)) := do
  let gathered ← tars.foldlM (readTar decode) {}
  let (merged, ordered) ← mergeSets gathered.manifests gathered.names
  let files ← ordered.mapM (writeEntry gathered)
  return (mergedManifestName, encode merged) :: files

/-! ### What is gathered -/

def isDataEntry (entry : TarEntry Body) : Bool :=
  entry.regular && !isManifestName (filepathBase entry.name)

def isManifestEntry (entry : TarEntry Body) : Bool :=
  entry.regular && isManifestName (filepathBase entry.name)

/-- The names of the files of a tar, its manifest apart. -/
def dataNames (tar : Tar Body) : List String :=
  (tar.filter isDataEntry).map fun entry => filepathBase entry.name

def manifestBodies (tar : Tar Body) : List Body :=
  (tar.filter isManifestEntry).map TarEntry.body

/-- The names are those with a tar, each once. -/
structure Gathered.Listed (gathered : Gathered Body) : Prop where
  nodup : gathered.names.Nodup
  mem_iff : ∀ name, name ∈ gathered.names ↔ (gathered.byPath name).isSome = true

theorem listed_file {gathered : Gathered Body} (listed : gathered.Listed) (name : String)
    (tar : Tar Body) :
    Gathered.Listed { gathered with
      names := if (gathered.byPath name).isSome then gathered.names else gathered.names ++ [name]
      byPath := fun other => if other = name then some tar else gathered.byPath other } := by
  by_cases known : (gathered.byPath name).isSome = true
  · refine ⟨by simpa [known] using listed.nodup, fun other => ?_⟩
    by_cases same : other = name
    · simp [known, same, listed.mem_iff]
    · simp [known, same, listed.mem_iff]
  · have newName : name ∉ gathered.names := fun member => known ((listed.mem_iff name).mp member)
    refine ⟨?_, fun other => ?_⟩
    · simpa [known] using List.nodup_append'.mpr ⟨listed.nodup, List.nodup_singleton name, by simpa⟩
    · by_cases same : other = name
      · simp [known, same]
      · simp [known, same, listed.mem_iff]

theorem readEntries_spec {decode : Body → Option PhysicalManifest} (tar : Tar Body)
    {entries : List (TarEntry Body)} {manifests : List PhysicalManifest}
    (decoded : (manifestBodies entries).map decode = manifests.map some)
    {before : Gathered Body} (listed : before.Listed) :
    ∃ after, entries.foldlM (readEntry decode tar) before = .ok after ∧
      after.manifests = before.manifests ++ manifests ∧
      (∀ name, after.byPath name =
        if name ∈ dataNames entries then some tar else before.byPath name) ∧ after.Listed := by
  induction entries generalizing before manifests with
  | nil =>
    have none : manifests = [] := List.map_eq_nil_iff.mp decoded.symm
    exact ⟨before, rfl, by simp [none], fun name => by simp [dataNames], listed⟩
  | cons entry rest ih =>
    rw [List.foldlM_cons]
    by_cases regular : entry.regular = true
    · by_cases isManifest : isManifestName (filepathBase entry.name) = true
      · -- the manifest of the tar
        have bodies : manifestBodies (entry :: rest) = entry.body :: manifestBodies rest := by
          simp [manifestBodies, isManifestEntry, regular, isManifest]
        have noName : dataNames (entry :: rest) = dataNames rest := by
          simp [dataNames, isDataEntry, regular, isManifest]
        rw [bodies, List.map_cons] at decoded
        cases manifests with
        | nil => exact absurd decoded (by simp)
        | cons pm others =>
          obtain ⟨isDecoded, othersDecoded⟩ := List.cons.inj decoded
          have step : readEntry decode tar before entry =
              .ok { before with manifests := before.manifests ++ [pm] } := by
            simp [readEntry, regular, isManifest, isDecoded]
          obtain ⟨after, read, manifestsRead, byPath, listedAfter⟩ :=
            @ih others othersDecoded
              { before with manifests := before.manifests ++ [pm] } ⟨listed.nodup, listed.mem_iff⟩
          refine ⟨after, ?_, ?_, ?_, listedAfter⟩
          · rw [step]
            exact read
          · rw [manifestsRead, List.append_assoc, List.singleton_append]
          · rw [noName]
            exact byPath
      · have bodies : manifestBodies (entry :: rest) = manifestBodies rest := by
          simp [manifestBodies, isManifestEntry, isManifest]
        have oneName : dataNames (entry :: rest) =
            filepathBase entry.name :: dataNames rest := by
          simp [dataNames, isDataEntry, regular, isManifest]
        rw [bodies] at decoded
        obtain ⟨after, read, manifestsRead, byPath, listedAfter⟩ :=
          ih decoded (listed_file listed (filepathBase entry.name) tar)
        refine ⟨after, ?_, manifestsRead, fun name => ?_, listedAfter⟩
        · rw [← read]
          simp [readEntry, regular, isManifest]
          rfl
        · rw [byPath, oneName]
          by_cases later : name ∈ dataNames rest
          · simp [later]
          · by_cases here : name = filepathBase entry.name
            · simp [here]
            · simp [later, here]
    · have bodies : manifestBodies (entry :: rest) = manifestBodies rest := by
        simp [manifestBodies, isManifestEntry, regular]
      have noName : dataNames (entry :: rest) = dataNames rest := by
        simp [dataNames, isDataEntry, regular]
      have step : readEntry decode tar before entry = .ok before := by
        simp [readEntry, regular]
      rw [bodies] at decoded
      rw [noName, step]
      exact ih decoded listed

/-! ### Chains -/

/-- The tar of one backup of a chain, with its manifest. -/
structure PhysicalSlice (decode : Body → Option PhysicalManifest) where
  tar : Tar Body
  manifest : PhysicalManifest
  decoded : (manifestBodies tar).map decode = [some manifest]
  version : manifest.version = physicalManifestVersion
  uniqueIds : manifest.UniqueIds
  holds : ∀ name ∈ manifest.fileNames, name ∈ dataNames tar

/-- The last slice of a chain with a property. -/
def LastWith {α : Type} (chain : List α) (Has : α → Prop) (last : α) : Prop :=
  ∃ before after, chain = before ++ last :: after ∧ Has last ∧ ∀ later ∈ after, ¬ Has later

theorem lastWith_iff_find? {α : Type} {chain : List α} {has : α → Bool} {last : α} :
    chain.reverse.find? has = some last ↔ LastWith chain (fun slice => has slice = true) last := by
  rw [List.find?_eq_some_iff_append]
  constructor
  · rintro ⟨here, after, before, parts, none⟩
    refine ⟨before.reverse, after.reverse, ?_, here, fun later member => ?_⟩
    · have turned := congrArg List.reverse parts
      rw [List.reverse_reverse, List.reverse_append, List.reverse_cons] at turned
      rw [turned, List.append_assoc, List.singleton_append]
    · simpa using none later (List.mem_reverse.mp member)
  · rintro ⟨before, after, rfl, here, none⟩
    refine ⟨here, after.reverse, before.reverse, by simp, fun later member => ?_⟩
    simpa using none later (List.mem_reverse.mp member)

theorem lastWith_iff_findSome? {α ε : Type} {chain : List α} {find : α → Option ε} {entry : ε} :
    chain.reverse.findSome? find = some entry ↔
      ∃ last, LastWith chain (fun slice => (find slice).isSome = true) last ∧
        find last = some entry := by
  rw [List.findSome?_eq_some_iff]
  constructor
  · rintro ⟨after, last, before, parts, found, none⟩
    refine ⟨last, ⟨before.reverse, after.reverse, ?_, by simp [found], fun later member => ?_⟩,
      found⟩
    · have turned := congrArg List.reverse parts
      rw [List.reverse_reverse, List.reverse_append, List.reverse_cons] at turned
      rw [turned, List.append_assoc, List.singleton_append]
    · simpa using none later (List.mem_reverse.mp member)
  · rintro ⟨last, ⟨before, after, rfl, -, none⟩, found⟩
    refine ⟨after.reverse, last, before.reverse, by simp, found, fun later member => ?_⟩
    simpa using none later (List.mem_reverse.mp member)

variable {decode : Body → Option PhysicalManifest}

/-- The last tar with a file of the name. -/
def lastHolding (chain : List (PhysicalSlice decode)) (name : String) :
    Option (PhysicalSlice decode) :=
  chain.reverse.find? fun slice => decide (name ∈ dataNames slice.tar)

theorem readTars_spec (chain : List (PhysicalSlice decode)) {before : Gathered Body}
    (listed : before.Listed) :
    ∃ after, (chain.map PhysicalSlice.tar).foldlM (readTar decode) before = .ok after ∧
      after.manifests = before.manifests ++ chain.map PhysicalSlice.manifest ∧
      (∀ name, after.byPath name =
        ((lastHolding chain name).map PhysicalSlice.tar).or (before.byPath name)) ∧
      after.Listed := by
  induction chain generalizing before with
  | nil => exact ⟨before, rfl, (List.append_nil _).symm, fun _ => rfl, listed⟩
  | cons slice rest ih =>
    obtain ⟨middle, read, manifests, byPath, middleListed⟩ :=
      @readEntries_spec _ decode slice.tar slice.tar [slice.manifest] slice.decoded _ listed
    obtain ⟨after, readRest, restManifests, restByPath, afterListed⟩ :=
      ih middleListed
    refine ⟨after, ?_, ?_, fun name => ?_, afterListed⟩
    · rw [List.map_cons, List.foldlM_cons, readTar, read]
      exact readRest
    · rw [restManifests, manifests, List.map_cons, List.append_assoc, List.singleton_append]
    · rw [restByPath, byPath, lastHolding, lastHolding, List.reverse_cons, List.find?_append]
      cases rest.reverse.find? fun slice => decide (name ∈ dataNames slice.tar) with
      | some last => rfl
      | none => by_cases here : name ∈ dataNames slice.tar <;> simp [here]

/-- A file of a tar can be opened. -/
theorem openEntry_isSome {tar : Tar Body} (member : name ∈ dataNames tar) :
    (openEntry tar name).isSome = true := by
  obtain ⟨entry, inTar, rfl⟩ := List.mem_map.mp member
  obtain ⟨entryMember, isData⟩ := List.mem_filter.mp inTar
  rw [openEntry, Option.isSome_map, List.find?_isSome]
  refine ⟨entry, entryMember, ?_⟩
  simp [(Bool.and_eq_true_iff.mp isData).1]

theorem not_isManifestName {tar : Tar Body} (member : name ∈ dataNames tar) :
    isManifestName name = false := by
  obtain ⟨entry, inTar, rfl⟩ := List.mem_map.mp member
  exact Bool.not_eq_true' _ |>.mp (Bool.and_eq_true_iff.mp (List.mem_filter.mp inTar).2).2

/-- The body the merged tar gets for a name. -/
def latestBody (chain : List (PhysicalSlice decode)) (name : String) : Option Body :=
  (lastHolding chain name).bind fun slice => openEntry slice.tar name

variable {chain : List (PhysicalSlice decode)}

theorem holds_of_lastHolding
    {slice : PhysicalSlice decode} (found : lastHolding chain name = some slice) :
    name ∈ dataNames slice.tar := by
  unfold lastHolding at found
  simpa using List.find?_some found

theorem latestBody_isSome
    (held : (lastHolding chain name).isSome = true) : (latestBody chain name).isSome = true := by
  obtain ⟨slice, found⟩ := Option.isSome_iff_exists.mp held
  rw [latestBody, found]
  exact openEntry_isSome (holds_of_lastHolding found)

/-! ### The merged tar -/

/-- Every listed name is written with its latest body. -/
theorem mapM_writeEntry {gathered : Gathered Body}
    (byPath : ∀ name, gathered.byPath name = (lastHolding chain name).map PhysicalSlice.tar)
    {names : List String} (held : ∀ name ∈ names, (lastHolding chain name).isSome = true) :
    ∃ files, names.mapM (writeEntry gathered) = .ok files ∧ files.map Prod.fst = names ∧
      ∀ file ∈ files, latestBody chain file.1 = some file.2 := by
  induction names with
  | nil => exact ⟨[], rfl, rfl, fun _ member => absurd member List.not_mem_nil⟩
  | cons name rest ih =>
    obtain ⟨here, restHeld⟩ := List.forall_mem_cons.mp held
    obtain ⟨files, written, restNames, bodies⟩ := ih restHeld
    obtain ⟨body, latest⟩ := Option.isSome_iff_exists.mp (latestBody_isSome here)
    have opened : (gathered.byPath name).bind (openEntry · name) = some body := by
      rw [byPath, Option.bind_map]
      exact latest
    have write : writeEntry gathered name = .ok (name, body) := by
      rw [writeEntry, opened]
    refine ⟨(name, body) :: files, ?_, by rw [List.map_cons, restNames], ?_⟩
    · rw [List.mapM_cons, write, written]
      rfl
    · exact List.forall_mem_cons.mpr ⟨latest, bodies⟩

/-- One file of each name. -/
theorem filter_name_eq {files : List (String × Body)} (nodup : (files.map Prod.fst).Nodup)
    {body : Body} (member : (name, body) ∈ files) :
    files.filter (fun file => file.1 = name) = [(name, body)] := by
  induction files with
  | nil => exact absurd member List.not_mem_nil
  | cons file rest ih =>
    obtain ⟨notLater, restNodup⟩ := List.nodup_cons.mp nodup
    rcases List.mem_cons.mp member with rfl | later
    · have none : rest.filter (fun other => other.1 = name) = [] :=
        List.filter_eq_nil_iff.mpr fun other inRest same =>
          notLater (List.mem_map.mpr ⟨other, inRest, of_decide_eq_true same⟩)
      rw [List.filter_cons_of_pos (by simp), none]
    · have other : file.1 ≠ name := fun same =>
        notLater (List.mem_map.mpr ⟨(name, body), later, same.symm⟩)
      rw [List.filter_cons_of_neg (by simpa using other), ih restNodup later]

/-- What the merge of a chain writes. -/
structure Merged (chain : List (PhysicalSlice decode)) (merged : PhysicalManifest)
    (files : List (String × Body)) : Prop where
  once : (merged.shards.map Prod.fst).Nodup
  latest : ∀ path entry, (path, entry) ∈ merged.shards ↔
    ∃ slice, LastWith chain (fun slice => path ∈ slice.manifest.shards.map Prod.fst) slice ∧
      (path, entry) ∈ slice.manifest.shards
  files : ∀ name ∈ merged.fileNames, ∃ slice body,
    LastWith chain (fun slice => name ∈ dataNames slice.tar) slice ∧
      openEntry slice.tar name = some body ∧
        files.filter (fun file => file.1 = name) = [(name, body)]

def mergedManifest (chain : List (PhysicalSlice decode)) : PhysicalManifest :=
  (chain.map PhysicalSlice.manifest).foldl mergeManifest {}

theorem forall_manifests {Holds : PhysicalManifest → Prop}
    (each : ∀ slice ∈ chain, Holds slice.manifest) :
    ∀ m ∈ chain.map PhysicalSlice.manifest, Holds m := by
  intro m member
  obtain ⟨slice, inChain, rfl⟩ := List.mem_map.mp member
  exact each slice inChain

theorem uniqueIds_mergedManifest (chain : List (PhysicalSlice decode)) :
    (mergedManifest chain).UniqueIds :=
  unique_foldl merges_manifest (forall_manifests fun slice _ => slice.uniqueIds) unique_default

theorem path_mem_iff (m : PhysicalManifest) (unique : m.UniqueIds) (path : ShardPath) :
    path ∈ m.shards.map Prod.fst ↔ (manifestShape.find m path).isSome = true := by
  rw [Option.isSome_iff_exists, List.mem_map]
  constructor
  · rintro ⟨⟨_, entry⟩, member, rfl⟩
    exact ⟨entry, (manifestShape.mem_entries unique _ _).mp member⟩
  · rintro ⟨entry, found⟩
    exact ⟨(path, entry), (manifestShape.mem_entries unique _ _).mpr found, rfl⟩

theorem mem_shards_mergedManifest (chain : List (PhysicalSlice decode)) (path : ShardPath)
    (entry : PhysicalShardEntry) :
    (path, entry) ∈ (mergedManifest chain).shards ↔
      ∃ slice, LastWith chain (fun slice => path ∈ slice.manifest.shards.map Prod.fst) slice ∧
        (path, entry) ∈ slice.manifest.shards := by
  have found : (path, entry) ∈ (mergedManifest chain).shards ↔
      chain.reverse.findSome? (fun slice => manifestShape.find slice.manifest path) =
        some entry := by
    refine (manifestShape.mem_entries (uniqueIds_mergedManifest chain) path entry).trans ?_
    rw [mergedManifest, find_foldl merges_manifest (forall_manifests fun slice _ => slice.uniqueIds),
      find_default, Option.or_none, ← List.map_reverse, List.findSome?_map]
    rfl
  have samePath : (fun slice : PhysicalSlice decode =>
      path ∈ slice.manifest.shards.map Prod.fst) =
      fun slice => (manifestShape.find slice.manifest path).isSome = true :=
    funext fun slice => propext (path_mem_iff slice.manifest slice.uniqueIds path)
  rw [found, lastWith_iff_findSome?, samePath]
  have sameEntry : ∀ slice : PhysicalSlice decode, (path, entry) ∈ slice.manifest.shards ↔
      manifestShape.find slice.manifest path = some entry := fun slice =>
    manifestShape.mem_entries slice.uniqueIds path entry
  simp only [sameEntry]

theorem lastHolding_of_named (named : name ∈ (mergedManifest chain).fileNames) :
    (lastHolding chain name).isSome = true := by
  have none : name ∉ ({} : PhysicalManifest).fileNames := List.not_mem_nil
  obtain ⟨m, member, inM⟩ := (mem_fileNames_merged
    (forall_manifests fun slice _ => slice.uniqueIds) unique_default named).resolve_left none
  obtain ⟨slice, inChain, rfl⟩ := List.mem_map.mp member
  rw [lastHolding, List.find?_isSome]
  exact ⟨slice, List.mem_reverse.mpr inChain, decide_eq_true (slice.holds name inM)⟩

theorem mergeSets_chain (notEmpty : chain ≠ []) (names : List String) :
    mergeSets (chain.map PhysicalSlice.manifest) names =
      .ok (mergedManifest chain, (names.filter fun name => !isManifestName name).mergeSort
        fun one other => decide (one ≤ other)) := by
  have some : (chain.map PhysicalSlice.manifest).isEmpty = false := by simpa using notEmpty
  have merged : mergeManifests {} (chain.map PhysicalSlice.manifest) =
      .ok (mergedManifest chain) :=
    mergeManifests_eq (forall_manifests fun slice _ => slice.version)
  rw [mergeSets, some, merged]
  rfl

theorem mergePhysicalTarFiles_spec (encode : PhysicalManifest → Body)  (notEmpty : chain ≠ []) :
    ∃ files, mergePhysicalTarFiles decode encode (chain.map PhysicalSlice.tar) =
        .ok ((mergedManifestName, encode (mergedManifest chain)) :: files) ∧
      ∀ name, (lastHolding chain name).isSome = true → ∃ body,
        latestBody chain name = some body ∧
          files.filter (fun file => file.1 = name) = [(name, body)] := by
  have initially : Gathered.Listed ({} : Gathered Body) :=
    ⟨List.nodup_nil, fun name => by simp⟩
  obtain ⟨gathered, read, manifests, byPath, listed⟩ := readTars_spec chain initially
  have byLast : ∀ name, gathered.byPath name =
      (lastHolding chain name).map PhysicalSlice.tar := fun name => by
    rw [byPath]
    exact Option.or_none
  have inNames : ∀ name, name ∈ gathered.names ↔ (lastHolding chain name).isSome = true :=
    fun name => by rw [listed.mem_iff, byLast, Option.isSome_map]
  have ordered : ∀ name, name ∈ (gathered.names.filter fun name => !isManifestName name).mergeSort
      (fun one other => decide (one ≤ other)) ↔ (lastHolding chain name).isSome = true := by
    intro name
    rw [List.mem_mergeSort, List.mem_filter, inNames]
    refine ⟨And.left, fun held => ⟨held, ?_⟩⟩
    obtain ⟨slice, found⟩ := Option.isSome_iff_exists.mp held
    rw [not_isManifestName (holds_of_lastHolding found)]
    rfl
  obtain ⟨files, written, names, bodies⟩ :=
    mapM_writeEntry byLast fun name member => (ordered name).mp member
  refine ⟨files, ?_, fun name held => ?_⟩
  · have sets := mergeSets_chain notEmpty gathered.names
    rw [mergePhysicalTarFiles, read]
    change (mergeSets gathered.manifests gathered.names >>= _) = _
    rw [manifests, List.nil_append, sets]
    change (List.mapM (writeEntry gathered) _ >>= _) = _
    rw [written]
    rfl
  · have nodup : (files.map Prod.fst).Nodup := by
      rw [names]
      exact ((List.mergeSort_perm ..).nodup_iff).mpr (listed.nodup.filter _)
    have named : name ∈ files.map Prod.fst := names ▸ (ordered name).mpr held
    obtain ⟨⟨_, body⟩, member, rfl⟩ := List.mem_map.mp named
    exact ⟨body, bodies _ member, filter_name_eq nodup member⟩

theorem latestBody_eq_some {body : Body} (latest : latestBody chain name = some body) :
    ∃ slice, LastWith chain (fun slice => name ∈ dataNames slice.tar) slice ∧
      openEntry slice.tar name = some body := by
  obtain ⟨slice, found, opened⟩ := Option.bind_eq_some_iff.mp latest
  have last := lastWith_iff_find?.mp found
  simp only [decide_eq_true_eq] at last
  exact ⟨slice, last, opened⟩

theorem merged_latest (encode : PhysicalManifest → Body) (chain : List (PhysicalSlice decode))
    (notEmpty : chain ≠ []) :
    ∃ merged files, mergePhysicalTarFiles decode encode (chain.map PhysicalSlice.tar) =
      .ok ((mergedManifestName, encode merged) :: files) ∧ Merged chain merged files := by
  obtain ⟨files, written, bodies⟩ := mergePhysicalTarFiles_spec encode notEmpty
  refine ⟨mergedManifest chain, files, written, ?_, mem_shards_mergedManifest chain, ?_⟩
  · exact manifestShape.nodup_paths (uniqueIds_mergedManifest chain)
  · intro name named
    obtain ⟨body, latest, once⟩ := bodies name (lastHolding_of_named named)
    obtain ⟨slice, last, opened⟩ := latestBody_eq_some latest
    exact ⟨slice, body, last, opened, once⟩

/-! ### A file name that comes again -/

/-- The file of each shard comes from the last tar whose manifest has the shard. -/
def ShardFilesFromTheirTars (chain : List (PhysicalSlice decode)) (files : List (String × Body)) :
    Prop :=
  ∀ path entry slice,
    LastWith chain (fun slice => path ∈ slice.manifest.shards.map Prod.fst) slice →
      (path, entry) ∈ slice.manifest.shards → ∃ body,
        openEntry slice.tar entry.file.fileName = some body ∧
          files.filter (fun file => file.1 = entry.file.fileName) =
            [(entry.file.fileName, body)]

def shardManifest (id : Int) : PhysicalManifest :=
  let shard : PhysicalShardEntry := { id := id, file := { fileName := "shard.tar" } }
  let policy : PhysicalRetentionPolicy :=
    { name := "autogen", shardGroups := [{ id := 1, shards := [shard] }] }
  { buckets := [{ organizationName := "org", bucketName := "b", retentionPolicies := [policy] }] }

def exampleDecode : PhysicalManifest ⊕ String → Option PhysicalManifest := Sum.getLeft?

def shardTar (id : Int) (text : String) : Tar (PhysicalManifest ⊕ String) :=
  [{ name := "a.manifest", body := .inl (shardManifest id) },
    { name := "shard.tar", body := .inr text }]

theorem isManifestName_examples : isManifestName (filepathBase "a.manifest") = true ∧
    isManifestName "shard.tar" = false ∧ filepathBase "shard.tar" = "shard.tar" := by
  decide +kernel

def shardSlice (id : Int) (text : String) : PhysicalSlice exampleDecode where
  tar := shardTar id text
  manifest := shardManifest id
  decoded := by
    obtain ⟨isManifest, isData, base⟩ := isManifestName_examples
    simp [shardTar, manifestBodies, isManifestEntry, isManifest, isData, base, exampleDecode]
  version := rfl
  uniqueIds := by
    simp [PhysicalManifest.UniqueIds, manifestShape, Shape.comap, nested, bucketShape,
      retentionPolicyShape, shardGroupShape, leaves, shardManifest]
  holds := by
    obtain ⟨isManifest, isData, base⟩ := isManifestName_examples
    intro name named
    have isShard : name = "shard.tar" := by
      simpa [PhysicalManifest.fileNames, PhysicalManifest.kvFiles, PhysicalManifest.sqlFiles,
        PhysicalManifest.shardFiles, PhysicalManifest.shards, manifestShape, Shape.comap, nested,
        bucketShape, retentionPolicyShape, shardGroupShape, leaves, shardManifest] using named
    simp [dataNames, isDataEntry, shardTar, isManifest, isData, base, isShard]

def shardChain : List (PhysicalSlice exampleDecode) := [shardSlice 1 "one", shardSlice 2 "two"]

theorem shardChain_merged :
    shardChain ≠ [] ∧ ∃ merged files,
      mergePhysicalTarFiles exampleDecode Sum.inl (shardChain.map PhysicalSlice.tar) =
        .ok ((mergedManifestName, Sum.inl merged) :: files) ∧ Merged shardChain merged files :=
  ⟨List.cons_ne_nil _ _, merged_latest Sum.inl shardChain (List.cons_ne_nil _ _)⟩

variable (id : Int)

theorem shards_shardSlice (text : String) : (shardSlice id text).manifest.shards =
      [(("org/b", "autogen", 1, id), { id := id, file := { fileName := "shard.tar" } })] := rfl

theorem dataNames_shardTar (text : String) :
    dataNames (shardSlice id text).tar = ["shard.tar"] := by
  obtain ⟨isManifest, isData, base⟩ := isManifestName_examples
  change dataNames (shardTar id text) = _
  simp [dataNames, isDataEntry, shardTar, isManifest, isData, base]

theorem openEntry_shardTar (text : String) :
    openEntry (shardSlice id text).tar "shard.tar" = some (.inr text) := by
  have other : filepathBase "a.manifest" ≠ "shard.tar" := by decide +kernel
  have base := isManifestName_examples.2.2
  change openEntry (shardTar id text) "shard.tar" = _
  simp [openEntry, shardTar, base, other]

/-- The first shard gets the file of the second tar. -/
theorem shardChain_first_shard_lost :
    ¬ ∃ merged files,
      mergePhysicalTarFiles exampleDecode Sum.inl (shardChain.map PhysicalSlice.tar) =
        .ok ((mergedManifestName, Sum.inl merged) :: files) ∧
          ShardFilesFromTheirTars shardChain files := by
  rintro ⟨merged, files, written, fromTheirTars⟩
  obtain ⟨others, alsoWritten, bodies⟩ :=
    mergePhysicalTarFiles_spec Sum.inl (show shardChain ≠ [] from List.cons_ne_nil _ _)
  obtain ⟨-, rfl⟩ := List.cons.inj (Except.ok.inj (written.symm.trans alsoWritten))
  have last : lastHolding shardChain "shard.tar" = some (shardSlice 2 "two") := by
    simp [lastHolding, shardChain, dataNames_shardTar]
  obtain ⟨body, latest, once⟩ := bodies "shard.tar" (by simp [last])
  rw [latestBody, last] at latest
  have second : body = .inr "two" :=
    Option.some.inj (latest.symm.trans (openEntry_shardTar 2 "two"))
  have lastWith : LastWith shardChain
      (fun slice => ("org/b", "autogen", 1, 1) ∈ slice.manifest.shards.map Prod.fst)
      (shardSlice 1 "one") := by
    refine ⟨[], [shardSlice 2 "two"], rfl, ?_, fun later member => ?_⟩
    · change _ ∈ (shardSlice 1 "one").manifest.shards.map Prod.fst
      rw [shards_shardSlice]
      exact List.mem_singleton_self _
    · rw [List.mem_singleton.mp member]
      change _ ∉ (shardSlice 2 "two").manifest.shards.map Prod.fst
      rw [shards_shardSlice]
      decide
  obtain ⟨first, opened, firstOnce⟩ := fromTheirTars ("org/b", "autogen", 1, 1) _ _ lastWith
    (by rw [shards_shardSlice]; exact List.mem_singleton_self _)
  have isFirst : first = .inr "one" :=
    Option.some.inj (opened.symm.trans (openEntry_shardTar 1 "one"))
  rw [second] at once
  rw [isFirst] at firstOnce
  have same := (Prod.mk.inj (List.cons.inj (once.symm.trans firstOnce)).1).2
  exact absurd (Sum.inr.inj same) (by decide)

end DbBackup.Engine.Influx
