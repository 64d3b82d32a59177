/-
# The `Produce` request

The parser of `crates/datarail-kafka/src/produce.rs`.  A partition entry carries one
blob of bytes, in which v2 record batches and legacy messages follow one another;
the parser reads all of them and condenses the blob into one list of values and at
most one exactly-once coordinate.

A value is kept with the header of the batch it came in, and a blob with the headers
of its batches; the broker reads neither.  Decompression is a parameter: `none` is a
build without the `compression` feature.
-/

import Datarail.Kafka.Codec
import Datarail.Kafka.Serve

namespace Datarail.Kafka

open Lib List Scan Reader

/-- The eight rounds of `crc32c` for one byte. -/
def crcBits : ℕ → UInt32 → UInt32
  | 0, crc => crc
  | n + 1, crc =>
    if crc &&& 1 ≠ 0 then crcBits n ((crc >>> 1) ^^^ 0x82F63B78) else crcBits n (crc >>> 1)

/-- `crc32c`: the reflected Castagnoli checksum. -/
def crc32c (data : List UInt8) : UInt32 :=
  ~~~ data.foldl (fun crc byte => crcBits 8 (crc ^^^ byte.toUInt32)) 0xFFFFFFFF

example : crc32c [0x31, 0x32, 0x33, 0x34, 0x35, 0x36, 0x37, 0x38, 0x39] = 0xE3069283 := by
  decide +kernel

/-- The fields of a v2 batch header that the parser uses. -/
structure BatchHeader where
  /-- `attributes`. -/
  attributes : ℤ
  /-- `producer_id`. -/
  producerId : ℤ
  /-- `producer_epoch`. -/
  producerEpoch : ℤ
  /-- `base_sequence`. -/
  baseSequence : ℤ
  /-- `record_count`. -/
  recordCount : ℤ
  deriving DecidableEq, Repr

namespace BatchHeader

/-- `attributes & 0x07`. -/
def codec (h : BatchHeader) : ℕ := (h.attributes % 8).toNat

/-- `attributes & 0x10 != 0`. -/
def transactional (h : BatchHeader) : Bool := decide (h.attributes / 16 % 2 = 1)

/-- The producer's pair. -/
def pair (h : BatchHeader) : ℤ × ℤ := (h.producerId, h.producerEpoch)

/-- The coordinate of the batch, if its producer is idempotent. -/
def coord (h : BatchHeader) : Option EosCoord :=
  if 0 ≤ h.producerId ∧ 0 ≤ h.baseSequence then
    some ⟨h.producerId, h.producerEpoch, h.baseSequence, h.recordCount, h.transactional⟩
  else none

end BatchHeader

/-- A record value, with the header of the v2 batch it came in (`none`: a legacy
message). -/
structure Value where
  /-- The header. -/
  batch : Option BatchHeader
  /-- The payload. -/
  bytes : List UInt8
  deriving DecidableEq, Repr

/-- `ParseError`. -/
inductive ParseError where
  | corrupt
  | malformed (error : ReadError)
  deriving DecidableEq, Repr

/-- `compress::decompress`, by codec id and with its size cap. -/
abbrev Decompress := ℕ → List UInt8 → ℕ → Except ReadError (List UInt8)

/-- `MAX_DECOMPRESSED`. -/
def maxDecompressed : ℕ := 16 * 1024 * 1024

/-- `take_varint_bytes`. -/
def takeVarintBytes : Reader (Option (List UInt8)) := do
  let len ← varint
  if len < 0 then return none else return some (← take len.toNat)

/-- One record of `parse_records_into`. -/
def parseRecord (batch : BatchHeader) (values : List Value) : Reader (List Value) := do
  let _length ← varint
  let _attributes ← int8
  let _timestampDelta ← varlong
  let _offsetDelta ← varint
  let _key ← takeVarintBytes
  let value ← takeVarintBytes
  let headerCount ← varint
  times (fun _ => do
    let _headerKey ← takeVarintBytes
    let _headerValue ← takeVarintBytes) headerCount.toNat ()
  -- a null value is skipped
  match value with
  | some bytes => return values ++ [⟨some batch, bytes⟩]
  | none => return values

/-- `parse_records_into`. -/
def parseRecordsInto (batch : BatchHeader) (n : ℕ) (values : List Value) : Reader (List Value) :=
  times (parseRecord batch) n values

/-- The reads of a v2 batch from `attributes` to `record_count`. -/
def readHeader : Reader BatchHeader := do
  let attributes ← int16
  let _lastOffsetDelta ← int32
  let _baseTimestamp ← int64
  let _maxTimestamp ← int64
  let producerId ← int64
  let producerEpoch ← int16
  let baseSequence ← int32
  let recordCount ← int32
  return { attributes, producerId, producerEpoch, baseSequence, recordCount }

/-- The records section of a v2 batch. -/
def parseSection (decompress : Option Decompress) (batch : BatchHeader) (batchEnd : ℕ)
    (values : List Value) : Reader (List Value) :=
  if batch.codec = 0 then parseRecordsInto batch batch.recordCount.toNat values
  else
    match decompress with
    | some decompress => do
        let blob ← take (batchEnd - (← .cursor).pos)
        let inner ← lift (decompress batch.codec blob maxDecompressed)
        -- the records are read from the decompressed bytes, whatever follows them
        let parsed ← lift ((parseRecordsInto batch batch.recordCount.toNat values).run (.new inner))
        return parsed.1
    | none => .fail (.invalid "compressed batches not supported")

/-- `parse_v2_records`, after the magic byte. -/
def parseV2Records (decompress : Option Decompress) (batchEnd : ℕ) (values : List Value) :
    Scan ParseError UInt8 (BatchHeader × List Value) := do
  let storedCrc ← uint32.mapError .malformed
  let c ← .cursor
  let crcEnd := min batchEnd c.buf.length
  if crcEnd < c.pos then
    .fail (.malformed (.invalid "record batch length runs past the buffer"))
  else if crc32c ((c.buf.drop c.pos).take (crcEnd - c.pos)) ≠ storedCrc then .fail .corrupt
  else mapError .malformed do
    let batch ← readHeader
    if batch.recordCount < 0 then .fail (.invalid "bad record count")
    else return (batch, ← parseSection decompress batch batchEnd values)

/-- The key and the value of a legacy message. -/
def parseKeyValue (values : List Value) : Reader (List Value) := do
  let _key ← nullableBytes
  match ← nullableBytes with
  | some bytes => return values ++ [⟨none, bytes⟩]
  | none => return values

/-- `parse_legacy_message`, after the magic byte. -/
def parseLegacyMessage (magic : ℤ) (values : List Value) : Reader (List Value) := do
  let attributes ← int8
  if attributes % 8 ≠ 0 then .fail (.invalid "compressed messages not supported")
  else if 1 ≤ magic then do
    let _timestamp ← int64
    parseKeyValue values
  else parseKeyValue values

/-- `ParsedRecords`, with the headers of the batches of the blob. -/
structure ParsedRecords where
  /-- The record values, in order. -/
  values : List Value
  /-- The coordinate of the blob. -/
  eos : Option EosCoord
  /-- The batches, a legacy message standing as `none`. -/
  batches : List (Option BatchHeader)

/-- The variables of `parse_record_batch`'s loop; its counter is `batches.length`. -/
structure BlobState where
  /-- `values`. -/
  values : List Value
  /-- The headers so far. -/
  batches : List (Option BatchHeader)
  /-- `first_coord`. -/
  firstCoord : Option EosCoord

/-- The loop body of `parse_record_batch`. -/
def parseBatch (decompress : Option Decompress) (st : BlobState) :
    Scan ParseError UInt8 BlobState := do
  let _offset ← int64.mapError .malformed
  let length ← int32.mapError .malformed
  let batchEnd := (← .cursor).pos + length.toNat
  let _crcOrEpoch ← uint32.mapError .malformed
  let magic ← int8.mapError .malformed
  if magic = 2 then
    let parsed ← parseV2Records decompress batchEnd st.values
    return {
      values := parsed.2
      batches := st.batches ++ [some parsed.1]
      firstCoord := if st.batches.isEmpty then parsed.1.coord else st.firstCoord }
  else if magic = 0 ∨ magic = 1 then
    let values ← (parseLegacyMessage magic st.values).mapError .malformed
    return { st with values := values, batches := st.batches ++ [none] }
  else .fail (.malformed (.invalid s!"unsupported record magic {magic}"))

/-- `parse_record_batch`. -/
def parseRecordBatch (decompress : Option Decompress) (blob : List UInt8) :
    Except ParseError ParsedRecords := do
  let (st, _) ← (untilEmpty (parseBatch decompress) blob.length ⟨[], [], none⟩).run (.new blob)
  return {
    values := st.values
    eos := if st.batches.length = 1 then st.firstCoord else none
    batches := st.batches }

/-- `ProducedPartition`, with the headers of the batches of its blob. -/
structure ProducedBlob extends ProducedPartition Value where
  /-- The batches of the blob. -/
  batches : List (Option BatchHeader)

/-- `ProducedTopic`. -/
structure ProducedTopic where
  /-- The name. -/
  name : String
  /-- Its entries. -/
  partitions : List ProducedBlob

/-- `ProducedRequest`. -/
structure ProducedRequest where
  /-- `acks`; with `0` no response is written. -/
  acks : ℤ
  /-- The topics. -/
  topics : List ProducedTopic

/-- The entries of a request, in the order `produce_results` takes them. -/
def ProducedRequest.entries (r : ProducedRequest) : List ProducedBlob := r.topics.flatMap (·.partitions)

/-- The inner loop body of `parse_produce`. -/
def parsePartition (decompress : Option Decompress) (name : String)
    (partitions : List ProducedBlob) : Reader (List ProducedBlob) := do
  let partition ← int32
  let tp : TopicPartition := ⟨name, partition⟩
  match ← nullableBytes with
  | some blob =>
    match parseRecordBatch decompress blob with
    | .ok p => return partitions ++ [⟨⟨tp, p.values, p.eos, none⟩, p.batches⟩]
    -- `CORRUPT_MESSAGE` for this entry alone
    | .error .corrupt => return partitions ++ [⟨⟨tp, [], none, some 2⟩, []⟩]
    | .error (.malformed e) => .fail e
  | none => return partitions ++ [⟨⟨tp, [], none, none⟩, []⟩]

/-- The outer loop body of `parse_produce`. -/
def parseTopic (decompress : Option Decompress) (topics : List ProducedTopic) : Reader (List ProducedTopic) := do
  let name ← string
  let count ← int32
  let bound ← boundedCount count 4
  let partitions ← times (parsePartition decompress name) bound []
  return topics ++ [⟨name, partitions⟩]

/-- `parse_produce` from `acks` on. -/
def parseTopics (decompress : Option Decompress) : Reader ProducedRequest := do
  let acks ← int16
  let _timeoutMs ← int32
  let count ← int32
  let bound ← boundedCount count 6
  return ⟨acks, ← times (parseTopic decompress) bound []⟩

/-- `parse_produce`, after the request header. -/
def parseProduce (decompress : Option Decompress) (version : ℤ) : Reader ProducedRequest :=
  if 3 ≤ version then do
    let _transactionalId ← nullableString
    parseTopics decompress
  else parseTopics decompress

/-! ### The loop over a blob -/

theorem moves_takeVarintBytes : takeVarintBytes.Moves 0 :=
  moves_varint.andThen fun _ => .ite (.pure _) ((moves_take _).andThen fun _ => .pure _)

theorem moves_parseRecord (batch : BatchHeader) (values : List Value) : (parseRecord batch values).Moves 0 := by
  refine moves_varint.andThen fun _ => (moves_int 1).andThen fun _ => ?_
  refine moves_varlong.andThen fun _ => moves_varint.andThen fun _ => ?_
  refine moves_takeVarintBytes.andThen fun _ => moves_takeVarintBytes.andThen fun value => ?_
  refine moves_varint.andThen fun _ => (Scan.Moves.times (fun _ => ?_) _ _).andThen fun _ => ?_
  · exact moves_takeVarintBytes.andThen fun _ => moves_takeVarintBytes.andThen fun _ => .pure _
  · cases value <;> exact .pure _

theorem moves_readHeader : readHeader.Moves 0 := by
  refine (moves_int 2).andThen fun _ => (moves_int 4).andThen fun _ => ?_
  refine (moves_int 8).andThen fun _ => (moves_int 8).andThen fun _ => ?_
  refine (moves_int 8).andThen fun _ => (moves_int 2).andThen fun _ => ?_
  exact (moves_int 4).andThen fun _ => (moves_int 4).andThen fun _ => .pure _

theorem moves_parseSection (decompress : Option Decompress) (batch : BatchHeader) (batchEnd : ℕ)
    (values : List Value) : (parseSection decompress batch batchEnd values).Moves 0 := by
  refine .ite (.times (moves_parseRecord batch) _ _) ?_
  cases decompress with
  | none => exact .fail _
  | some decompress =>
    refine Scan.Moves.cursor.andThen fun _ => (moves_take _).andThen fun _ => ?_
    exact (Scan.Moves.lift _).andThen fun _ => (Scan.Moves.lift _).andThen fun _ => .pure _

theorem moves_parseV2Records (decompress : Option Decompress) (batchEnd : ℕ) (values : List Value) :
    (parseV2Records decompress batchEnd values).Moves 0 := by
  refine moves_uint32.mapError.andThen fun _ => Scan.Moves.cursor.andThen fun _ => ?_
  refine .ite (.fail _) (.ite (.fail _) (.mapError ?_))
  refine moves_readHeader.andThen fun batch => .ite (.fail _) ?_
  exact (moves_parseSection _ _ _ _).andThen fun _ => .pure _

theorem moves_parseLegacyMessage (magic : ℤ) (values : List Value) : (parseLegacyMessage magic values).Moves 0 := by
  have hbody : (parseKeyValue values).Moves 0 := by
    refine moves_nullableBytes.andThen fun _ => moves_nullableBytes.andThen fun value => ?_
    cases value <;> exact .pure _
  refine (moves_int 1).andThen fun _ => .ite (.fail _) (.ite ?_ hbody)
  exact (moves_int 8).andThen fun _ => hbody

/-- A round of the loop reads at least the offset. -/
theorem moves_parseBatch (decompress : Option Decompress) (st : BlobState) : (parseBatch decompress st).Moves 1 := by
  have hrest : ∀ x : Scan ParseError UInt8 BlobState, x.Moves 0 →
      (int64.mapError ParseError.malformed >>= fun _ => x).Moves 1 := fun x hx =>
    ((moves_int 8).mapError.bind fun _ => hx).mono (by omega)
  refine hrest _ ?_
  refine (moves_int 4).mapError.andThen fun _ => Scan.Moves.cursor.andThen fun _ => ?_
  refine moves_uint32.mapError.andThen fun _ => (moves_int 1).mapError.andThen fun _ => ?_
  refine .ite ((moves_parseV2Records _ _ _).andThen fun _ => .pure _) (.ite ?_ (.fail _))
  exact (moves_parseLegacyMessage _ _).mapError.andThen fun _ => .pure _

/-- **`parse_record_batch` reads the blob to its end**: the bound on its loop is never
reached. -/
theorem parseBlob_loop (decompress : Option Decompress) (st : BlobState) (c : Cursor UInt8) :
    (untilEmpty (parseBatch decompress) c.buf.length st).run c = if c.isEmpty then .ok (st, c)
      else (parseBatch decompress st >>= untilEmpty (parseBatch decompress) c.buf.length).run c :=
  untilEmpty_eq (moves_parseBatch decompress) _ st c (by omega)

/-! ### What a blob is condensed to -/

/-- The values that a batch adds carry its header. -/
def AddedBy (batch : Option BatchHeader) (values values' : List Value) : Prop :=
  ∀ v ∈ values', v ∈ values ∨ v.batch = batch

theorem AddedBy.push {batch : Option BatchHeader} {values values' : List Value}
    (h : AddedBy batch values values') (bytes : List UInt8) :
    AddedBy batch values (values' ++ [⟨batch, bytes⟩]) :=
  forall_mem_append.2 ⟨h, forall_mem_singleton.2 (.inr rfl)⟩

variable {decompress : Option Decompress} {values : List Value} {batch : BatchHeader}

theorem parseRecord_added {start : List Value} (h : AddedBy (some batch) start values) :
    (parseRecord batch values).Gives (AddedBy (some batch) start) := by
  refine .skip fun _ => .skip fun _ => .skip fun _ => .skip fun _ => .skip fun _ => .skip fun value => ?_
  refine .skip fun _ => .skip fun _ => ?_
  cases value with
  | none => exact .pure h
  | some bytes => exact .pure (h.push bytes)

theorem parseRecordsInto_added {n : ℕ} : (parseRecordsInto batch n values).Gives (AddedBy (some batch) values) :=
  .times (fun _ => parseRecord_added) n fun _ => .inl

theorem parseSection_added {batchEnd : ℕ} :
    (parseSection decompress batch batchEnd values).Gives (AddedBy (some batch) values) := by
  refine .ite (fun _ => parseRecordsInto_added) fun _ => ?_
  cases decompress with
  | none => exact .fail _
  | some decompress =>
    refine .skip fun _ => .skip fun _ => .skip fun _ => ?_
    exact (Gives.lift fun parsed hparsed => parseRecordsInto_added _ parsed.1 parsed.2 hparsed).bind fun _ => .pure

theorem parseV2Records_added {batchEnd : ℕ} : (parseV2Records decompress batchEnd values).Gives fun parsed =>
    AddedBy (some parsed.1) values parsed.2 := by
  refine .skip fun _ => .skip fun _ => .ite (fun _ => .fail _) fun _ => .ite (fun _ => .fail _) fun _ => .mapError ?_
  exact .skip fun _ => .ite (fun _ => .fail _) fun _ => parseSection_added.bind fun _ hadd => .pure hadd

theorem parseKeyValue_added : (parseKeyValue values).Gives (AddedBy none values) := by
  refine .skip fun _ => .skip fun value => ?_
  cases value with
  | none => exact .pure fun _ => .inl
  | some bytes => exact .pure (AddedBy.push (fun _ => .inl) bytes)

theorem parseLegacyMessage_added {magic : ℤ} : (parseLegacyMessage magic values).Gives (AddedBy none values) :=
  .skip fun _ => .ite (fun _ => .fail _) fun _ =>
    .ite (fun _ => .skip fun _ => parseKeyValue_added) fun _ => parseKeyValue_added

/-- The coordinate that a list of batches leaves: that of a single idempotent v2
batch. -/
def condensed : List (Option BatchHeader) → Option EosCoord
  | [some h] => h.coord
  | _ => none

/-- **The loop invariant**: values carry headers of the blob, and `first_coord` is the
coordinate of its first batch. -/
structure BlobState.Inv (st : BlobState) : Prop where
  headed : ∀ v ∈ st.values, v.batch ∈ st.batches
  first : st.firstCoord = st.batches.head?.join.bind BatchHeader.coord

theorem BlobState.Inv.added {st : BlobState} (h : st.Inv) {batch : Option BatchHeader} {values' : List Value}
    (hadd : AddedBy batch st.values values') {v : Value} (hv : v ∈ values') :
    v.batch ∈ st.batches ++ [batch] := by
  rcases hadd v hv with hv | hv
  · exact mem_append_left _ (h.headed v hv)
  · rw [hv]
    exact mem_append_right _ mem_cons_self

theorem BlobState.Inv.step {st : BlobState} (h : st.Inv) : (parseBatch decompress st).Gives BlobState.Inv := by
  have hfirst := h.first
  refine .skip fun _ => .skip fun _ => .skip fun _ => .skip fun _ => .skip fun magic => ?_
  refine .ite (fun _ => parseV2Records_added.bind fun parsed hadd => .pure ⟨fun v => h.added hadd, ?_⟩) fun _ => ?_
  · cases hb : st.batches with
    | nil => rfl
    | cons first rest =>
      rw [hb] at hfirst
      exact hfirst
  · refine .ite (fun _ => ?_) fun _ => .fail _
    refine parseLegacyMessage_added.mapError.bind fun values hadd => .pure ⟨fun v => h.added hadd, ?_⟩
    cases hb : st.batches with
    | nil =>
      rw [hb] at hfirst
      exact hfirst
    | cons first rest =>
      rw [hb] at hfirst
      exact hfirst

/-- **What `parse_record_batch` makes of a blob.**  Every value came in one of its
batches, and the coordinate is that of the only one. -/
theorem parseRecordBatch_ok {blob : List UInt8} {p : ParsedRecords} (h : parseRecordBatch decompress blob = .ok p) :
    (∀ v ∈ p.values, v.batch ∈ p.batches) ∧ p.eos = condensed p.batches := by
  cases hrun : (untilEmpty (parseBatch decompress) blob.length ⟨[], [], none⟩).run (.new blob) with
  | error e =>
    rw [parseRecordBatch, hrun] at h
    cases h
  | ok r =>
    have hinv : r.1.Inv := Gives.untilEmpty (fun _ => BlobState.Inv.step) _ ⟨forall_mem_nil _, rfl⟩ _ _ _ hrun
    rw [parseRecordBatch, hrun] at h
    cases h
    refine ⟨hinv.headed, ?_⟩
    have hfirst := hinv.first
    rcases hb : r.1.batches with _ | ⟨first, _ | ⟨second, rest⟩⟩
    · rfl
    · rw [hb] at hfirst
      cases first with
      | none => exact hfirst
      | some h => exact hfirst
    · cases first <;> rfl

/-- An entry holds what its blob was condensed to. -/
structure ProducedBlob.Condensed (q : ProducedBlob) : Prop where
  headed : ∀ v ∈ q.values, v.batch ∈ q.batches
  eos : q.eos = condensed q.batches

section Entries

variable {P : ProducedBlob → Prop} {qs : List ProducedBlob}

theorem forall_push {q : ProducedBlob} (h : ∀ x ∈ qs, P x) (hq : P q) :
    ∀ x ∈ qs ++ [q], P x := forall_mem_append.2 ⟨h, forall_mem_singleton.2 hq⟩

/-- What an entry of a request is: a parsed blob, a corrupt one, or none. -/
theorem parsePartition_forall {name : String}
    (hparsed : ∀ tp blob p, parseRecordBatch decompress blob = .ok p → P ⟨⟨tp, p.values, p.eos, none⟩, p.batches⟩)
    (hcorrupt : ∀ tp, P ⟨⟨tp, [], none, some 2⟩, []⟩) (hnull : ∀ tp, P ⟨⟨tp, [], none, none⟩, []⟩)
    (h : ∀ q ∈ qs, P q) : (parsePartition decompress name qs).Gives fun qs => ∀ q ∈ qs, P q := by
  refine .skip fun partition => .skip fun blob => ?_
  cases blob with
  | none => exact .pure (forall_push h (hnull _))
  | some blob =>
    cases hparse : parseRecordBatch decompress blob with
    | ok p =>
      simp only [hparse]
      exact .pure (forall_push h (hparsed _ blob p hparse))
    | error e =>
      simp only [hparse]
      cases e with
      | corrupt => exact .pure (forall_push h (hcorrupt _))
      | malformed e => exact .fail _

variable (hentry : ∀ name qs, (∀ q ∈ qs, P q) → (parsePartition decompress name qs).Gives fun qs => ∀ q ∈ qs, P q)

include hentry

theorem parseTopic_forall {topics : List ProducedTopic} (h : ∀ topic ∈ topics, ∀ q ∈ topic.partitions, P q) :
    (parseTopic decompress topics).Gives fun topics => ∀ topic ∈ topics, ∀ q ∈ topic.partitions, P q := by
  refine .skip fun name => .skip fun _ => .skip fun _ => ?_
  refine (Gives.times (hentry name) _ (forall_mem_nil _)).bind fun qs hqs => .pure ?_
  exact forall_mem_append.2 ⟨h, forall_mem_singleton.2 hqs⟩

theorem parseTopics_forall : (parseTopics decompress).Gives fun r => ∀ q ∈ r.entries, P q := by
  refine .skip fun _ => .skip fun _ => .skip fun _ => .skip fun _ => ?_
  refine (Gives.times (fun _ => parseTopic_forall hentry) _ (forall_mem_nil _)).bind fun topics hall => .pure fun q hq => ?_
  obtain ⟨topic, ht, hq⟩ := mem_flatMap.1 hq
  exact hall topic ht q hq

omit hentry in
/-- **A property of every entry of a `Produce` request.** -/
theorem parseProduce_forall {version : ℤ}
    (hparsed : ∀ tp blob p, parseRecordBatch decompress blob = .ok p → P ⟨⟨tp, p.values, p.eos, none⟩, p.batches⟩)
    (hcorrupt : ∀ tp, P ⟨⟨tp, [], none, some 2⟩, []⟩) (hnull : ∀ tp, P ⟨⟨tp, [], none, none⟩, []⟩) :
    (parseProduce decompress version).Gives fun r => ∀ q ∈ r.entries, P q := by
  have hall := parseTopics_forall fun _ _ => parsePartition_forall hparsed hcorrupt hnull
  exact .ite (fun _ => .skip fun _ => hall) fun _ => hall

end Entries

variable {c d : Cursor UInt8} {version : ℤ} {r : ProducedRequest}
    (hrun : (parseProduce decompress version).run c = .ok (r, d))

include hrun

/-- **Every entry of a `Produce` request is its blob, condensed.** -/
theorem parseProduce_condensed : ∀ q ∈ r.entries, q.Condensed :=
  parseProduce_forall (fun _ _ _ hparse => ⟨(parseRecordBatch_ok hparse).1, (parseRecordBatch_ok hparse).2⟩)
    (fun _ => ⟨nofun, rfl⟩) (fun _ => ⟨nofun, rfl⟩) c r d hrun

/-- **An entry that the parser rejects** is rejected as corrupt and has no records. -/
theorem parseProduce_rejected : ∀ q ∈ r.entries, ∀ code, q.errorCode = some code → code = 2 ∧ q.values = [] :=
  parseProduce_forall (P := fun q => ∀ code, q.errorCode = some code → code = 2 ∧ q.values = [])
    (fun _ _ _ _ => nofun) (fun _ _ h => by cases h; exact ⟨rfl, rfl⟩) (fun _ => nofun) c r d hrun

end Datarail.Kafka
