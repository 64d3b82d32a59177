/-
# The persistent gate

`FileOnce` of `crates/datarail-once/src/persist.rs`: the gate with a log on disk.  A
delivered admission is appended to the log and synced before it is answered, and `open`
replays the log into a fresh gate.  A record is a tag, a body and four bytes of checksum:

    D  stream (16)  seq (8, little-endian)  key (32)
    W  stream (16)  watermark (8, little-endian)

Every so often the log is replaced by a snapshot of the gate: for each stream its watermark
(`W`) and what is parked above it (`D`).

The snapshot leaves out the keys of the numbers below the watermark that the gate still
remembers.  `Coarser` compares a stream with one that has forgotten some of those: it has
the same watermark and the same numbers above it, and it keeps up with every delivery
(`Coarser.deliver`).  A log always replays to a gate that is coarser than the one that wrote
it.
-/

import Datarail.Cofre.Seal
import Datarail.Lib.Frames
import Datarail.Once.Safety

namespace Datarail.Once

open Lib List

/-- A record of the log. -/
inductive Record where
  | delivered (stream : Arr 16) (seq : ℕ) (key : Arr 32)
  | checkpoint (stream : Arr 16) (watermark : ℕ)

namespace Record

/-- `TAG_DELIVERED` and `TAG_CHECKPOINT`. -/
def tag : Record → UInt8
  | .delivered .. => 68
  | .checkpoint .. => 87

/-- `delivered_body` and `checkpoint_body`. -/
def body : Record → Bytes
  | .delivered stream seq key => stream.1 ++ (leBytes 8 seq ++ key.1)
  | .checkpoint stream watermark => stream.1 ++ leBytes 8 watermark

/-- The number of a record, a `u64`. -/
def number : Record → ℕ
  | .delivered _ seq _ => seq
  | .checkpoint _ watermark => watermark

/-- `D_BODY` and `W_BODY`, by tag. -/
def bodyLen : UInt8 → Option ℕ
  | 68 => some (16 + 8 + 32)
  | 87 => some (16 + 8)
  | _ => none

/-- The fields of a body. -/
def ofBody (tag : UInt8) (body : Bytes) : Option Record := do
  let stream ← slice body 0 16
  let number ← slice body 16 8
  match tag with
  | 68 =>
    let key ← slice body 24 32
    return .delivered stream (leNat number.1) key
  | 87 => return .checkpoint stream (leNat number.1)
  | _ => none

end Record

section Codec

variable (C : Crypto)

/-- `crc4`: four bytes of the hash. -/
def crc4 (bytes : Bytes) : Bytes := (C.blake3 bytes).1.take 4

/-- `encode`. -/
def encodeRecord (r : Record) : Bytes := r.tag :: r.body ++ crc4 C (r.tag :: r.body)

/-- One round of `replay`: the first record, unless it is short or its checksum is wrong. -/
def parseRecord : Bytes → Option (Record × Bytes)
  | [] => none
  | tag :: rest => do
      let len ← Record.bodyLen tag
      if rest.length < len + 4 then none
      else if (rest.drop len).take 4 ≠ crc4 C (tag :: rest.take len) then none
      else
        let r ← Record.ofBody tag (rest.take len)
        return (r, rest.drop (len + 4))

theorem length_crc4 (bytes : Bytes) : (crc4 C bytes).length = 4 := by
  rw [crc4, length_take, (C.blake3 bytes).2]
  rfl

namespace Record

theorem bodyLen_tag (r : Record) : bodyLen r.tag = some r.body.length := by
  cases r with
  | delivered stream seq key =>
    rw [body, length_append, length_append, stream.2, key.2, length_leBytes]
    rfl
  | checkpoint stream watermark =>
    rw [body, length_append, stream.2, length_leBytes]
    rfl

theorem ofBody_body {r : Record} (h : r.number < 2 ^ 64) : ofBody r.tag r.body = some r := by
  cases r with
  | delivered stream seq key =>
    have h₀ : slice (body (.delivered stream seq key)) 0 16 = some stream :=
      slice_append [] stream _ rfl
    have h₁ : slice (body (.delivered stream seq key)) 16 8 = some ⟨leBytes 8 seq, length_leBytes 8 seq⟩ :=
      slice_append stream.1 ⟨leBytes 8 seq, length_leBytes 8 seq⟩ key.1 stream.2
    have h₂ : slice (body (.delivered stream seq key)) 24 32 = some key := by
      have := slice_append (stream.1 ++ leBytes 8 seq) key []
        (show _ = 24 by rw [length_append, stream.2, length_leBytes])
      rwa [append_nil, append_assoc] at this
    have hseq : leNat (leBytes 8 seq) = seq := leNat_leBytes_of_lt h
    simp only [ofBody, tag, h₀, h₁, h₂, Option.bind_eq_bind, Option.bind_some]
    rw [hseq]
    rfl
  | checkpoint stream watermark =>
    have h₀ : slice (body (.checkpoint stream watermark)) 0 16 = some stream :=
      slice_append [] stream _ rfl
    have h₁ : slice (body (.checkpoint stream watermark)) 16 8 =
        some ⟨leBytes 8 watermark, length_leBytes 8 watermark⟩ := by
      have := slice_append stream.1 ⟨leBytes 8 watermark, length_leBytes 8 watermark⟩ [] stream.2
      rwa [append_nil] at this
    have hseq : leNat (leBytes 8 watermark) = watermark := leNat_leBytes_of_lt h
    simp only [ofBody, tag, h₀, h₁, Option.bind_eq_bind, Option.bind_some]
    rw [hseq]
    rfl

theorem slice_eq_some {bytes : Bytes} {i n : ℕ} {a : Arr n} (h : slice bytes i n = some a) :
    (bytes.drop i).take n = a.1 := by
  unfold slice at h
  split_ifs at h
  exact congrArg Subtype.val (Option.some.inj h)

theorem body_of_ofBody {tag : UInt8} {body : Bytes} {r : Record} (hlen : bodyLen tag = some body.length)
    (h : ofBody tag body = some r) : r.tag = tag ∧ r.body = body ∧ r.number < 2 ^ 64 := by
  obtain ⟨stream, hstream, h⟩ := Option.bind_eq_some_iff.1 h
  obtain ⟨number, hnumber, h⟩ := Option.bind_eq_some_iff.1 h
  have hlt : leNat number.1 < 2 ^ 64 := by
    have := leNat_lt number.1
    rwa [number.2] at this
  have hbytes : leBytes 8 (leNat number.1) = number.1 := by
    have := leBytes_leNat number.1
    rwa [number.2] at this
  have hhead : stream.1 ++ (body.drop 16) = body := by
    rw [← slice_eq_some hstream, drop_zero, take_append_drop]
  have hmid : number.1 ++ body.drop 24 = body.drop 16 := by
    rw [← slice_eq_some hnumber, show body.drop 24 = (body.drop 16).drop 8 by rw [drop_drop], take_append_drop]
  unfold bodyLen at hlen
  split at hlen
  · obtain ⟨key, hkey, h⟩ := Option.bind_eq_some_iff.1 h
    obtain rfl := Option.some.inj h
    have hlen := Option.some.inj hlen
    have hlast : key.1 = body.drop 24 := by
      rw [← slice_eq_some hkey, take_of_length_le (by rw [length_drop]; omega)]
    exact ⟨rfl, by rw [Record.body, hbytes, hlast, hmid, hhead], hlt⟩
  · obtain rfl := Option.some.inj h
    have hlen := Option.some.inj hlen
    have hlast : body.drop 24 = [] := drop_eq_nil_of_le (by omega)
    rw [hlast, append_nil] at hmid
    exact ⟨rfl, by rw [Record.body, hbytes, hmid, hhead], hlt⟩
  · cases hlen

end Record

/-- Bytes begin with the encoding of a record exactly when `replay` finds it there. -/
theorem parseRecord_eq_some {bytes rest : Bytes} {r : Record} :
    parseRecord C bytes = some (r, rest) ↔ r.number < 2 ^ 64 ∧ bytes = encodeRecord C r ++ rest := by
  constructor
  · intro h
    cases bytes with
    | nil => cases h
    | cons tag bytes =>
      obtain ⟨len, hlen, h⟩ := Option.bind_eq_some_iff.1 h
      split_ifs at h with hshort hcrc
      obtain ⟨r', hbody, h⟩ := Option.bind_eq_some_iff.1 h
      obtain ⟨rfl, rfl⟩ := Prod.mk.inj (Option.some.inj h)
      have htake : (bytes.take len).length = len := by
        rw [length_take]
        omega
      obtain ⟨rfl, hbytes, hnumber⟩ := Record.body_of_ofBody (by rw [htake, hlen]) hbody
      refine ⟨hnumber, ?_⟩
      rw [encodeRecord, hbytes, ← not_ne_iff.1 hcrc, cons_append, cons_append, append_assoc,
        ← drop_drop, take_append_drop, take_append_drop]
  · rintro ⟨hnumber, rfl⟩
    have hbytes : encodeRecord C r ++ rest = r.tag :: (r.body ++ (crc4 C (r.tag :: r.body) ++ rest)) := by
      rw [encodeRecord, cons_append, cons_append, append_assoc]
    have hcrc := length_crc4 C (r.tag :: r.body)
    rw [hbytes, parseRecord, Record.bodyLen_tag]
    simp only [Option.bind_eq_bind, Option.bind_some]
    rw [if_neg (by rw [length_append, length_append]; omega), take_left' rfl,
      drop_left' rfl, take_left' hcrc, if_neg (fun h => h rfl), Record.ofBody_body hnumber,
      Option.bind_some, ← drop_drop, drop_left' rfl, drop_left' hcrc]
    rfl

/-- The format of the log. -/
def recordCodec : Codec UInt8 Record where
  Fits r := r.number < 2 ^ 64
  frame := encodeRecord C
  parse := parseRecord C
  frame_ne_nil _ := cons_ne_nil _ _
  parse_eq_some := parseRecord_eq_some C

end Codec

namespace StreamState

variable {κ : Type} [DecidableEq κ]

/-- `Once::restore_watermark` on the state of the stream. -/
def restoreWatermark (gcLag : ℕ) (st : StreamState κ) (watermark : ℕ) : StreamState κ :=
  if st.lowWatermark < watermark then
    let gcFloor := watermark - gcLag
    let deliveredKeys := retainKeys st.deliveredKeys fun n => decide (gcFloor ≤ n)
    { seen := st.seen.filter fun key => deliveredKeys.entries.any fun e => decide (e.2 = key)
      deliveredKeys
      ahead := st.ahead.filter (watermark ≤ ·)
      lowWatermark := watermark
      gcFloor }
  else st

/-- The entries of a checkpoint: what was delivered at or above the watermark, by number. -/
def entries (st : StreamState κ) : List (ℕ × κ) :=
  ((st.deliveredKeys.entries.filter fun e => decide (st.lowWatermark ≤ e.1)).map
    fun e => (e.1, e.2)).insertionSort fun a b => a.1 ≤ b.1

end StreamState

namespace Gate

variable {ι κ : Type} [DecidableEq ι] [DecidableEq κ]

/-- `Once::restore_watermark`. -/
def restoreWatermark (g : Gate ι κ) (s : ι) (watermark : ℕ) : Gate ι κ :=
  { g with streams := g.streams.insert s ((g.stream s).restoreWatermark g.gcLag watermark) }

/-- `Once::checkpoints`. -/
def checkpoints (order : KeyOrder ι) (g : Gate ι κ) : List (ι × ℕ × List (ℕ × κ)) :=
  (order.order g.streams.keys).map fun s => (s, (g.stream s).lowWatermark, (g.stream s).entries)

end Gate

/-- Replay one record. -/
def Record.apply (once : Gate (Arr 16) (Arr 32)) : Record → Gate (Arr 16) (Arr 32)
  | .delivered stream seq key => (once.admitSeq stream seq key).1
  | .checkpoint stream watermark => once.restoreWatermark stream watermark

/-- The records of a snapshot. -/
def snapshot (order : KeyOrder (Arr 16)) (once : Gate (Arr 16) (Arr 32)) : List Record :=
  (once.checkpoints order).flatMap fun (stream, watermark, entries) =>
    .checkpoint stream watermark :: entries.map fun (seq, key) => .delivered stream seq key

/-- The gate some records lead to. -/
def rebuild (gcLag : ℕ) (records : List Record) : Gate (Arr 16) (Arr 32) :=
  records.foldl Record.apply (.withGcLag gcLag)

/-- `COMPACT_EVERY`. -/
def defaultCompactEvery : ℕ := 2 ^ 16

/-- `FileOnce`, with the bytes of its log. -/
structure FileOnce where
  once : Gate (Arr 16) (Arr 32)
  log : Bytes
  appended : ℕ

namespace FileOnce

variable (C : Crypto)

/-- `FileOnce::open` on a log; the source has `defaultGcLag` for `gcLag`. -/
def «open» (gcLag : ℕ) (log : Bytes) : FileOnce :=
  let records := (recordCodec C).records log
  { once := rebuild gcLag records, log, appended := records.length }

/-- `compact`. -/
def compact (order : KeyOrder (Arr 16)) (f : FileOnce) : FileOnce :=
  let records := snapshot order f.once
  { f with log := (recordCodec C).frames records, appended := records.length }

/-- The gate and the log once a delivered record has been synced. -/
def append (f : FileOnce) (a : Admission (Arr 16) (Arr 32)) : FileOnce :=
  { once := (f.once.admitSeq a.stream a.seq a.key).1
    log := f.log ++ encodeRecord C (.delivered a.stream a.seq a.key)
    appended := f.appended + 1 }

@[simp] theorem log_append (f : FileOnce) (a : Admission (Arr 16) (Arr 32)) :
    (f.append C a).log = f.log ++ encodeRecord C (.delivered a.stream a.seq a.key) := rfl

@[simp] theorem log_compact (order : KeyOrder (Arr 16)) (f : FileOnce) :
    (f.compact C order).log = (recordCodec C).frames (snapshot order f.once) := rfl

/-- `FileOnce::admit`; the source has `defaultCompactEvery` for `compactEvery`. -/
def admitSeq (compactEvery : ℕ) (order : KeyOrder (Arr 16)) (f : FileOnce)
    (a : Admission (Arr 16) (Arr 32)) : FileOnce × Disposition :=
  let disposition := (f.once.admitSeq a.stream a.seq a.key).2
  if disposition = .delivered then
    let f := f.append C a
    (if compactEvery ≤ f.appended then f.compact C order else f, disposition)
  else ({ f with once := (f.once.admitSeq a.stream a.seq a.key).1 }, disposition)

end FileOnce

namespace StreamState

variable {κ : Type} [DecidableEq κ] {gcLag : ℕ} {st st' st'' : StreamState κ}

/-- `st'` is `st` but for some keys of numbers below the watermark, which it has forgotten. -/
structure Coarser (gcLag : ℕ) (st st' : StreamState κ) : Prop where
  sound : st.Sound gcLag
  sound' : st'.Sound gcLag
  low : st'.lowWatermark = st.lowWatermark
  above : ∀ n, st.lowWatermark ≤ n → st'.deliveredKeys.lookup n = st.deliveredKeys.lookup n
  sub : ∀ n key, st'.deliveredKeys.lookup n = some key → st.deliveredKeys.lookup n = some key

namespace Coarser

omit [DecidableEq κ] in
theorem refl (h : st.Sound gcLag) : Coarser gcLag st st :=
  ⟨h, h, rfl, fun _ _ => rfl, fun _ _ hk => hk⟩

omit [DecidableEq κ] in
theorem trans (h : Coarser gcLag st st') (h' : Coarser gcLag st' st'') : Coarser gcLag st st'' where
  sound := h.sound
  sound' := h'.sound'
  low := h'.low.trans h.low
  above n hn := (h'.above n (by rw [h.low]; exact hn)).trans (h.above n hn)
  sub n key hk := h.sub n key (h'.sub n key hk)

omit [DecidableEq κ] in
theorem ahead (h : Coarser gcLag st st') : st'.ahead = st.ahead := by
  ext n
  rw [h.sound'.ahead, h.sound.ahead, h.low]
  exact and_congr_right fun hn => by rw [h.above n hn]

omit [DecidableEq κ] in
theorem settled_iff (h : Coarser gcLag st st') (n : ℕ) : st'.Settled n ↔ st.Settled n := by
  rw [Settled, Settled, h.low]
  by_cases hn : n < st.lowWatermark
  · exact iff_of_true (.inl hn) (.inl hn)
  · rw [h.above n (Nat.le_of_not_lt hn)]

omit [DecidableEq κ] in
theorem repeats_of_repeats (h : Coarser gcLag st st') {seq : ℕ} {key : κ} (hrep : st'.Repeats seq key) :
    st.Repeats seq key := by
  rcases hrep with hlow | hseen | hsome
  · exact .inl (h.low ▸ hlow)
  · obtain ⟨n, hn⟩ := (h.sound'.seen key).1 hseen
    exact .inr (.inl ((h.sound.seen key).2 ⟨n, h.sub n key hn⟩))
  · obtain ⟨key', hkey⟩ := Option.isSome_iff_exists.1 hsome
    exact .inr (.inr (by rw [h.sub seq key' hkey]; rfl))

/-- **A coarser stream keeps up with every delivery.** -/
theorem deliver (h : Coarser gcLag st st') {seq : ℕ} {key : κ} (hnew : ¬ st.Repeats seq key) :
    Coarser gcLag (st.deliver gcLag seq key) (st'.deliver gcLag seq key) := by
  have hd := h.sound.deliver hnew
  have hd' := h.sound'.deliver fun hrep => hnew (h.repeats_of_repeats hrep)
  have hlow : (st'.deliver gcLag seq key).lowWatermark = (st.deliver gcLag seq key).lowWatermark := by
    simp only [StreamState.deliver, lowWatermark_collect, h.ahead, h.low]
  have hfloor : (st'.deliver gcLag seq key).gcFloor = (st.deliver gcLag seq key).gcFloor := by
    rw [hd.sound.floor, hd'.sound.floor, hlow]
  refine ⟨hd.sound, hd'.sound, hlow, fun n hn => ?_, fun n k hk => ?_⟩
  · rw [hd.get, hd'.get, hfloor, h.above n (hd.advanced.le.trans hn)]
  · rw [hd'.get, hfloor] at hk
    rw [hd.get]
    split_ifs at hk ⊢ with h₁ h₂
    · exact hk
    · exact h.sub n k hk

end Coarser

/-- A stream as `restore_watermark` makes it, with `done` admitted since. -/
structure Restored (gcLag watermark : ℕ) (done : List (ℕ × κ)) (st : StreamState κ) : Prop where
  sound : st.Sound gcLag
  low : st.lowWatermark = watermark
  lookup : ∀ n key, st.deliveredKeys.lookup n = some key ↔ (n, key) ∈ done

theorem restored_restoreWatermark (gcLag watermark : ℕ) :
    Restored gcLag watermark [] ((new : StreamState κ).restoreWatermark gcLag watermark) := by
  unfold restoreWatermark
  split_ifs with h
  · refine ⟨⟨⟨fun key => ?_, fun n m key hn => ?_⟩, rfl, fun n key hn => ?_, fun n => ?_, rfl, Nat.zero_le _⟩,
      rfl, fun n key => ?_⟩
    · simp [new, lookup_retainKeys]
    · cases hn
    · cases hn
    · simp [new, lookup_retainKeys]
    · simp [new, lookup_retainKeys]
  · refine ⟨Sound.new, ?_, fun n key => ?_⟩
    · exact (Nat.le_zero.1 (Nat.le_of_not_lt h)).symm
    · simp [new]

/-- The next entry of a checkpoint is parked where it was. -/
theorem Restored.admitSeq {done : List (ℕ × κ)} {n : ℕ} {key : κ} (hst : st.Sound gcLag)
    (h : Restored gcLag st.lowWatermark done st')
    (hdone : ∀ e ∈ done, st.deliveredKeys.lookup e.1 = some e.2) (hnot : ∀ e ∈ done, e.1 ≠ n)
    (hn : st.lowWatermark ≤ n) (hkey : st.deliveredKeys.lookup n = some key) :
    Restored gcLag st.lowWatermark (done ++ [(n, key)]) (st'.admitSeq gcLag n key).1 := by
  have hnone : st'.deliveredKeys.lookup n = none := by
    rcases hget : st'.deliveredKeys.lookup n with _ | k
    · rfl
    · exact absurd rfl (hnot _ ((h.lookup n k).1 hget))
  have hnew : ¬ st'.Repeats n key := by
    rintro (hlow | hseen | hsome)
    · rw [h.low] at hlow
      omega
    · obtain ⟨m, hm⟩ := (h.sound.seen key).1 hseen
      have hmem := (h.lookup m key).1 hm
      exact hnot _ hmem (hst.unique m n key (hdone _ hmem) hkey)
    · rw [hnone] at hsome
      cases hsome
  have hparked : ∀ m ∈ insert n st'.ahead, m ∈ st.ahead := by
    intro m hm
    rcases Finset.mem_insert.1 hm with rfl | hm
    · exact (hst.ahead m).2 ⟨hn, by rw [hkey]; rfl⟩
    · obtain ⟨hle, hsome⟩ := (h.sound.ahead m).1 hm
      obtain ⟨k, hk⟩ := Option.isSome_iff_exists.1 hsome
      exact (hst.ahead m).2 ⟨h.low ▸ hle, by rw [hdone _ ((h.lookup m k).1 hk)]; rfl⟩
  have hd := h.sound.deliver hnew
  rw [admitSeq_eq, if_neg hnew]
  -- nothing is sealed and nothing drained, so the watermark stays
  have hlow : (st'.deliver gcLag n key).lowWatermark = st.lowWatermark := by
    by_contra hne
    have hle := hd.advanced.le
    rw [h.low] at hle
    have hcard := (Finset.card_le_card hparked).trans hst.horizon
    have hmem := hd.contiguous hcard st.lowWatermark h.low.le (show _ < _ by
      omega)
    exact Nat.lt_irrefl _ (hst.lt_of_mem_ahead (hparked _ hmem))
  refine ⟨hd.sound, hlow, fun m k => ?_⟩
  have hfloor : (st'.deliver gcLag n key).gcFloor = st'.gcFloor := by
    rw [hd.sound.floor, h.sound.floor, hlow, h.low]
  have hle : st'.gcFloor ≤ n := by
    rw [h.sound.floor, h.low]
    omega
  rw [hd.get, hfloor, mem_append, mem_singleton, ← h.lookup, Prod.mk.injEq]
  by_cases hm : m = n
  · subst hm
    rw [if_neg (by omega), if_pos rfl, hnone]
    simp [eq_comm]
  · rw [if_neg hm]
    split_ifs with hlt
    · constructor
      · intro hk
        cases hk
      · rintro (hk | ⟨rfl, -⟩)
        · have := h.sound.retained m k hk
          omega
        · exact absurd rfl hm
    · simp [hm]

omit [DecidableEq κ] in
theorem mem_entries {n : ℕ} {key : κ} :
    (n, key) ∈ st.entries ↔ st.lowWatermark ≤ n ∧ st.deliveredKeys.lookup n = some key := by
  rw [entries, mem_insertionSort, ← Option.mem_def, AList.mem_lookup_iff]
  simp only [mem_map, mem_filter, decide_eq_true_eq, Prod.mk.injEq]
  constructor
  · rintro ⟨⟨m, k⟩, ⟨hmem, hle⟩, rfl, rfl⟩
    exact ⟨hle, hmem⟩
  · rintro ⟨hle, hmem⟩
    exact ⟨⟨n, key⟩, ⟨hmem, hle⟩, rfl, rfl⟩

omit [DecidableEq κ] in
theorem nodup_entries : (st.entries.map Prod.fst).Nodup := by
  have hperm := (perm_insertionSort (fun a b : ℕ × κ => a.1 ≤ b.1)
    ((st.deliveredKeys.entries.filter fun e => decide (st.lowWatermark ≤ e.1)).map fun e => (e.1, e.2))).map Prod.fst
  rw [entries, hperm.nodup_iff, map_map]
  exact (filter_sublist.map _).nodup st.deliveredKeys.nodupKeys

/-- **A checkpoint restores all but the keys below the watermark.** -/
theorem coarser_of_entries (hst : st.Sound gcLag) :
    Coarser gcLag st (st.entries.foldl (fun st' e => (st'.admitSeq gcLag e.1 e.2).1)
      ((new : StreamState κ).restoreWatermark gcLag st.lowWatermark)) := by
  have hrun : ∀ todo done : List (ℕ × κ), done ++ todo = st.entries → ∀ st', Restored gcLag st.lowWatermark done st' →
      Restored gcLag st.lowWatermark st.entries (todo.foldl (fun st' e => (st'.admitSeq gcLag e.1 e.2).1) st') := by
    intro todo
    induction todo with
    | nil =>
      intro done hdone st' h
      rw [append_nil] at hdone
      exact hdone ▸ h
    | cons e todo ih =>
      intro done hdone st' h
      have hmem : ∀ e' ∈ done ++ e :: todo, st.lowWatermark ≤ e'.1 ∧
          st.deliveredKeys.lookup e'.1 = some e'.2 := fun e' he' => mem_entries.1 (hdone ▸ he')
      have hnodup : (st.entries.map Prod.fst).Nodup := nodup_entries
      rw [← hdone, map_append, nodup_append] at hnodup
      refine ih (done ++ [e]) (by rw [append_assoc]; exact hdone) _ ?_
      have he := hmem e (by simp)
      refine h.admitSeq hst (fun e' he' => (hmem e' (mem_append_left _ he')).2) (fun e' he' => ?_) he.1 he.2
      exact hnodup.2.2 _ (mem_map_of_mem he') _ (by simp)
  have h := hrun st.entries [] rfl _ (restored_restoreWatermark gcLag st.lowWatermark)
  refine ⟨hst, h.sound, h.low, fun n hn => ?_, fun n key hk => (mem_entries.1 ((h.lookup n key).1 hk)).2⟩
  refine Option.ext fun key => ?_
  rw [h.lookup, mem_entries]
  exact and_iff_right hn

end StreamState

end Datarail.Once
