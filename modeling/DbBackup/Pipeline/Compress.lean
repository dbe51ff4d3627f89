import DbBackup.Pipeline.ChunkOrder

/-!
Owns what the gzip and zstd compressors of `internal/compress/compress.go` write under each
combination of level, threads and rsyncable, and what their decompressors make of it.

`Encoders` stands for the libraries: gzip gives a member that is not empty and reads one or more
members, zstd gives a frame and reads any number of frames. Contract: `roundTrips_iff`. What was
compressed comes back, except from gzip with threads or rsyncable and no data: the parallel writer
then has no segment and writes no member, and the reader fails.

Does not own: bzip2 and xz, which ignore the options.
-/

set_option linter.all false

namespace DbBackup.Pipeline.Compress

open ChunkWriter Lib

/-! ### The libraries -/

structure ZstdOptions where
  level : Int
  /-- None is the library's own choice. -/
  concurrency : Option Int
  concurrentBlocks : Bool

structure Encoders where
  gzipMember : Int → Bytes → Bytes
  gunzip : Bytes → Option Bytes
  zstdFrame : ZstdOptions → Bytes → Bytes
  unzstd : Bytes → Option Bytes
  gunzip_nil : gunzip [] = none
  gunzip_members : ∀ level (pieces : List Bytes), pieces ≠ [] →
    gunzip (pieces.flatMap (gzipMember level)) = some pieces.flatten
  unzstd_frames : ∀ options (pieces : List Bytes),
    unzstd (pieces.flatMap (zstdFrame options)) = some pieces.flatten

/-! ### Compressing -/

inductive Format where
  | gzip
  | zstd
deriving DecidableEq

structure Options where
  threads : Int
  rsyncable : Bool
deriving DecidableEq

/-- A compressor writes one stream, or segments in parallel. -/
inductive Writer where
  | plain (encode : Bytes → Bytes)
  | chunks (threads : Int) (encode : Bytes → Bytes)

def atLeastOne (threads : Int) : Int := if threads < 1 then 1 else threads

def gzipWriter (encoders : Encoders) (level : Int) (opts : Options) : Writer :=
  let level := if level < 1 ∨ level > 9 then 3 else level
  let lvl := if level > 0 then level else -1
  if opts.rsyncable ∨ opts.threads > 1 then
    .chunks (atLeastOne opts.threads) (encoders.gzipMember lvl)
  else .plain (encoders.gzipMember lvl)

def zstdWriter (encoders : Encoders) (level : Int) (opts : Options) : Writer :=
  let level := if level < 1 ∨ level > 19 then 3 else level
  if opts.rsyncable then
    .chunks (atLeastOne opts.threads) (encoders.zstdFrame ⟨level, some 1, false⟩)
  else if opts.threads > 1 then .plain (encoders.zstdFrame ⟨level, some opts.threads, true⟩)
  else if opts.threads = 1 then .plain (encoders.zstdFrame ⟨level, some 1, false⟩)
  else .plain (encoders.zstdFrame ⟨level, none, false⟩)

def compress (encoders : Encoders) (format : Format) (level : Int) (opts : Options) : Writer :=
  match format with
  | .gzip => gzipWriter encoders level opts
  | .zstd => zstdWriter encoders level opts

/-- The output can hold this when all is written and `Close` has returned nil. -/
def Writer.Writes : Writer → List Bytes → Bytes → Prop
  | .plain encode, writes, out => out = encode writes.flatten
  | .chunks threads encode, writes, out =>
    ∃ s, Reaches threads (fun _ seg => .ok (encode seg)) writes s ∧
      s.client = .returned none ∧ s.out = out

def decompress (encoders : Encoders) : Format → Bytes → Option Bytes
  | .gzip => encoders.gunzip
  | .zstd => encoders.unzstd

/-! ### What is written -/

theorem encodings_ok (encode : Bytes → Bytes) (data : Bytes) :
    encodings (fun _ seg => .ok (encode seg)) data =
      (segments data).map fun seg => .ok (encode seg) := by
  refine List.ext_getElem? fun i => ?_
  rw [encodings, List.getElem?_mapIdx, List.getElem?_map]

/-- A parallel writer whose encoder does not fail writes the segments' encodings, and nothing
else. -/
theorem chunks_writes_iff (threads : Int) (encode : Bytes → Bytes) (writes : List Bytes)
    (out : Bytes) :
    (Writer.chunks threads encode).Writes writes out ↔
      out = (segments writes.flatten).flatMap encode := by
  have allOk : ∀ result ∈ encodings (fun _ seg => .ok (encode seg)) writes.flatten,
      isOk result = true := by
    rw [encodings_ok]
    intro result mem
    obtain ⟨seg, -, rfl⟩ := List.mem_map.mp mem
    rfl
  have joined : (encodings (fun _ seg => .ok (encode seg)) writes.flatten).flatMap okBytes =
      (segments writes.flatten).flatMap encode := by
    rw [encodings_ok, List.flatMap_map]
    rfl
  constructor
  · rintro ⟨s, run, returned, rfl⟩
    have stored : AllStored s := by
      intro call mem
      by_contra bad
      exact ((reaches_invariant run).failed returned (.inr ⟨call, mem, bad⟩)).1 rfl
    exact ((reaches_invariant run).good returned allOk stored).2.trans joined
  · rintro rfl
    obtain ⟨s, err, run, returned, stored⟩ :=
      exists_allStored threads (fun _ seg => .ok (encode seg)) writes
    obtain ⟨rfl, out⟩ := (reaches_invariant run).good returned allOk stored
    exact ⟨s, run, returned, out.trans joined⟩

theorem flatten_segments (data : Bytes) : (segments data).flatten = data :=
  Chunks.flatten_chunks ..

theorem segments_eq_nil_iff (data : Bytes) : segments data = [] ↔ data = [] := by
  constructor
  · intro none
    rw [← flatten_segments data, none]
    rfl
  · rintro rfl
    rfl

/-! ### Coming back -/

/-- Something is written, and whatever it is, decompressing gives the data back. -/
def RoundTrips (encoders : Encoders) (format : Format) (level : Int) (opts : Options)
    (writes : List Bytes) : Prop :=
  (∃ out, (compress encoders format level opts).Writes writes out) ∧
    ∀ out, (compress encoders format level opts).Writes writes out →
      decompress encoders format out = some writes.flatten

def Writer.Back (writer : Writer) (read : Bytes → Option Bytes) (writes : List Bytes) : Prop :=
  (∃ out, writer.Writes writes out) ∧
    ∀ out, writer.Writes writes out → read out = some writes.flatten

theorem plain_back_iff (encode : Bytes → Bytes) (read : Bytes → Option Bytes)
    (writes : List Bytes) :
    (Writer.plain encode).Back read writes ↔
      read (encode writes.flatten) = some writes.flatten := by
  constructor
  · intro back
    exact back.2 _ rfl
  · intro reads
    refine ⟨⟨_, rfl⟩, ?_⟩
    rintro out rfl
    exact reads

theorem chunks_back_iff (threads : Int) (encode : Bytes → Bytes) (read : Bytes → Option Bytes)
    (writes : List Bytes) :
    (Writer.chunks threads encode).Back read writes ↔
      read ((segments writes.flatten).flatMap encode) = some writes.flatten := by
  simp only [Writer.Back, chunks_writes_iff]
  constructor
  · intro back
    exact back.2 _ rfl
  · intro reads
    refine ⟨⟨_, rfl⟩, ?_⟩
    rintro out rfl
    exact reads

theorem zstd_back (encoders : Encoders) (level : Int) (opts : Options) (writes : List Bytes) :
    (zstdWriter encoders level opts).Back encoders.unzstd writes := by
  have plain : ∀ options,
      (Writer.plain (encoders.zstdFrame options)).Back encoders.unzstd writes := by
    intro options
    have one := encoders.unzstd_frames options [writes.flatten]
    rw [List.flatMap_singleton, List.flatten_singleton] at one
    exact (plain_back_iff _ _ _).mpr one
  unfold zstdWriter
  dsimp only
  split
  · rw [chunks_back_iff, encoders.unzstd_frames, flatten_segments]
  · split
    · exact plain _
    · split
      · exact plain _
      · exact plain _

theorem gzip_back_iff (encoders : Encoders) (level : Int) (opts : Options)
    (writes : List Bytes) :
    (gzipWriter encoders level opts).Back encoders.gunzip writes ↔
      ¬ ((opts.rsyncable = true ∨ 1 < opts.threads) ∧ writes.flatten = []) := by
  unfold gzipWriter
  dsimp only
  split
  next parallel =>
    rw [chunks_back_iff]
    by_cases empty : writes.flatten = []
    · rw [(segments_eq_nil_iff _).mpr empty, List.flatMap_nil, encoders.gunzip_nil]
      exact ⟨nofun, fun fine => absurd ⟨parallel, empty⟩ fine⟩
    · rw [encoders.gunzip_members _ _ (mt (segments_eq_nil_iff _).mp empty), flatten_segments]
      exact ⟨fun _ both => empty both.2, fun _ => rfl⟩
  next single =>
    rw [plain_back_iff]
    refine ⟨fun _ both => single both.1, fun _ => ?_⟩
    have one := encoders.gunzip_members
      (if (if level < 1 ∨ level > 9 then 3 else level) > 0 then
        if level < 1 ∨ level > 9 then 3 else level else -1) [writes.flatten]
      (List.cons_ne_nil _ _)
    rw [List.flatMap_singleton, List.flatten_singleton] at one
    exact one

theorem roundTrips_iff (encoders : Encoders) (format : Format) (level : Int) (opts : Options)
    (writes : List Bytes) :
    RoundTrips encoders format level opts writes ↔
      ¬ (format = .gzip ∧ (opts.rsyncable = true ∨ 1 < opts.threads) ∧ writes.flatten = []) := by
  cases format with
  | gzip =>
    refine (gzip_back_iff encoders level opts writes).trans (not_congr ?_)
    exact ⟨fun both => ⟨rfl, both⟩, fun all => all.2⟩
  | zstd =>
    exact ⟨fun _ all => (nomatch all.1), fun _ => zstd_back encoders level opts writes⟩

/-! ### No data -/

/-- Every byte is marked, and a member begins with a mark of its own. -/
def mark (data : Bytes) : Bytes := data.flatMap fun byte => [1, byte]

def unmark : Bytes → Bytes
  | [] => []
  | [_] => []
  | kind :: byte :: rest => if kind = 1 then byte :: unmark rest else unmark (byte :: rest)

theorem unmark_mark (data rest : Bytes) : unmark (mark data ++ rest) = data ++ unmark rest := by
  induction data with
  | nil => rfl
  | cons byte data ih =>
    change unmark (1 :: byte :: (mark data ++ rest)) = byte :: (data ++ unmark rest)
    rw [unmark, if_pos rfl, ih]

theorem unmark_zero (rest : Bytes) : unmark (0 :: rest) = unmark rest := by
  cases rest with
  | nil => rfl
  | cons byte rest => exact if_neg (by decide)

theorem unmark_frames (start : Bytes) (silent : ∀ rest, unmark (start ++ rest) = unmark rest)
    (pieces : List Bytes) : unmark (pieces.flatMap fun data => start ++ mark data) =
      pieces.flatten := by
  induction pieces with
  | nil => rfl
  | cons data pieces ih =>
    rw [List.flatMap_cons, List.append_assoc, silent, unmark_mark, ih,
      List.flatten_cons]

/-- Encoders that do not compress. -/
def marking : Encoders where
  gzipMember := fun _ data => [0] ++ mark data
  gunzip := fun stream => if stream = [] then none else some (unmark stream)
  zstdFrame := fun _ data => [] ++ mark data
  unzstd := fun stream => some (unmark stream)
  gunzip_nil := rfl
  gunzip_members := by
    intro _ pieces some
    have first : pieces.flatMap (fun data => [0] ++ mark data) ≠ [] := by
      cases pieces with
      | nil => exact absurd rfl some
      | cons data pieces => exact nofun
    rw [if_neg first, unmark_frames [0] unmark_zero]
  unzstd_frames := by
    intro _ pieces
    rw [unmark_frames [] fun _ => rfl]

theorem nothing_in_two_threads_fails : ¬ RoundTrips marking .gzip 6 ⟨2, false⟩ [] :=
  fun back => (gzip_back_iff marking 6 ⟨2, false⟩ []).mp back ⟨.inr (by decide), rfl⟩

end DbBackup.Pipeline.Compress
