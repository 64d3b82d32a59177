/-
# What the store of offsets does to its log

The records of the log are a `Codec` (`recordCodec`), so that the log is whole
records and a tail, `replay` folds the records into a map (`open_eq`), and what
the calls do can be said by the records they add.  A call gives groups their
offsets one after the other, or takes them away (`Call.updates`).

`rewriteMap_cases` and `commitMany_cases` say once what the two ways to change
the log can do, under any fault; everything else is read off them.
-/

import Datarail.Offsets.Store

namespace Datarail.Offsets

open Lib List AList FileOffsets

section Format

/-- The names that can be written: their length is a `u32`. -/
def NameFits (group : String) : Prop := (utf8Bytes group).length < 2 ^ 32

instance (group : String) : Decidable (NameFits group) := inferInstanceAs (Decidable (_ < _))

theorem leBytes_ofNat_leNat {bytes : Bytes} (h : bytes.length = 8) :
    leBytes 8 (UInt64.ofNat (leNat bytes)).toNat = bytes := by
  have hlt := leNat_lt bytes
  have hback := leBytes_leNat bytes
  rw [h] at hlt hback
  rw [UInt64.toNat_ofNat', Nat.mod_eq_of_lt (by omega), hback]

/-- A record is read where its bytes stand and nowhere else. -/
theorem parseRecord_eq_some {buf rest : Bytes} {value : String × UInt64} :
    parseRecord buf = some (value, rest) ↔ NameFits value.1 ∧ buf = recordBytes value ++ rest := by
  obtain ⟨group, offset⟩ := value
  constructor
  · intro h
    simp only [parseRecord, Option.bind_eq_bind, Option.bind_eq_some_iff] at h
    obtain ⟨⟨lenBytes, buf₁⟩, h₁, ⟨groupBytes, buf₂⟩, h₂, ⟨offsetBytes, buf₃⟩, h₃, ⟨crcBytes, buf₄⟩, h₄, h⟩ := h
    obtain ⟨hlen, rfl⟩ := cut_eq_some.1 h₁
    obtain ⟨hgroup, rfl⟩ := cut_eq_some.1 h₂
    obtain ⟨hoffset, rfl⟩ := cut_eq_some.1 h₃
    obtain ⟨hcrc, rfl⟩ := cut_eq_some.1 h₄
    dsimp only at h hgroup
    split_ifs at h with hsum
    obtain ⟨name, hname, h⟩ := Option.bind_eq_some_iff.1 h
    cases h
    obtain rfl := ofUtf8_eq_some.1 hname
    have hlt := leNat_lt lenBytes
    have hlenBack := leBytes_leNat lenBytes
    have hcrcBack := leBytes_leNat crcBytes
    rw [hlen] at hlt hlenBack
    rw [hcrc] at hcrcBack
    have hfits : (utf8Bytes group).length < 2 ^ 32 := by omega
    refine ⟨hfits, ?_⟩
    have hbody : recordBody group (UInt64.ofNat (leNat offsetBytes)) = lenBytes ++ utf8Bytes group ++ offsetBytes := by
      rw [recordBody, hgroup, hlenBack, leBytes_ofNat_leNat hoffset]
    rw [recordBytes, hbody, not_ne_iff.1 hsum, hcrcBack]
    simp only [append_assoc]
  · rintro ⟨hfits, rfl⟩
    have hfits : (utf8Bytes group).length < 2 ^ 32 := hfits
    have hlen : leNat (leBytes 4 (utf8Bytes group).length) = (utf8Bytes group).length :=
      leNat_leBytes_of_lt (by omega)
    have hcrc : leNat (leBytes 4 (crc32 (recordBody group offset)).toNat) = (crc32 (recordBody group offset)).toNat :=
      leNat_leBytes_of_lt (crc32 (recordBody group offset)).toNat_lt
    have hoffset : UInt64.ofNat (leNat (leBytes 8 offset.toNat)) = offset := by
      rw [leNat_leBytes_of_lt offset.toNat_lt, UInt64.ofNat_toNat]
    have hbuf : recordBytes (group, offset) ++ rest = leBytes 4 (utf8Bytes group).length ++ (utf8Bytes group ++
        (leBytes 8 offset.toNat ++ (leBytes 4 (crc32 (recordBody group offset)).toNat ++ rest))) := by
      simp only [recordBytes, recordBody, append_assoc]
    have hbody : leBytes 4 (utf8Bytes group).length ++ utf8Bytes group ++ leBytes 8 offset.toNat =
        recordBody group offset := rfl
    simp only [parseRecord, hbuf, Option.bind_eq_bind, Option.bind_some,
      cut_eq_some.2 ⟨length_leBytes 4 (utf8Bytes group).length, rfl⟩, cut_eq_some.2 ⟨hlen.symm, rfl⟩,
      cut_eq_some.2 ⟨length_leBytes 8 offset.toNat, rfl⟩,
      cut_eq_some.2 ⟨length_leBytes 4 (crc32 (recordBody group offset)).toNat, rfl⟩]
    rw [hbody, hcrc, if_neg (not_not.2 rfl), ofUtf8_eq_some.2 rfl, hoffset]
    rfl

/-- The format of the log. -/
def recordCodec : Codec UInt8 (String × UInt64) where
  Fits value := NameFits value.1
  frame := recordBytes
  parse := parseRecord
  frame_ne_nil value h := by
    have := congrArg length h
    rw [recordBytes, length_append, length_leBytes, length_nil] at this
    omega
  parse_eq_some := parseRecord_eq_some

/-- `encodeAll` writes the frames, if every name fits. -/
theorem encodeAll_eq (values : List (String × UInt64)) :
    encodeAll values = if ∀ value ∈ values, NameFits value.1 then .ok (recordCodec.frames values)
      else .error nameTooLong := by
  induction values with
  | nil => rfl
  | cons value values ih =>
    obtain ⟨group, offset⟩ := value
    have hencode : encodeRecord group offset =
        if NameFits group then .ok (recordBytes (group, offset)) else .error nameTooLong := rfl
    rw [encodeAll, ih, hencode]
    have hcons : (∀ value ∈ (group, offset) :: values, NameFits value.1) ↔
        NameFits group ∧ ∀ value ∈ values, NameFits value.1 := forall_mem_cons
    by_cases hgroup : NameFits group
    · by_cases hvalues : ∀ value ∈ values, NameFits value.1
      · rw [if_pos hgroup, if_pos hvalues, if_pos (hcons.2 ⟨hgroup, hvalues⟩)]
        rfl
      · rw [if_pos hgroup, if_neg hvalues, if_neg fun h => hvalues (hcons.1 h).2]
        rfl
    · rw [if_neg hgroup, if_neg fun h => hgroup (hcons.1 h).1]
      rfl

end Format

section Replay

theorem replayLoop_eq (fuel : ℕ) (buf : Bytes) (map : OffsetMap) (records : ℕ) : replayLoop fuel buf map records =
      (insertAll map (recordCodec.scan fuel buf).1, records + (recordCodec.scan fuel buf).1.length,
        (recordCodec.scan fuel buf).2) := by
  induction fuel generalizing buf map records with
  | zero => rfl
  | succ fuel ih =>
    have hparse : recordCodec.parse buf = parseRecord buf := rfl
    rw [replayLoop, Codec.scan, hparse]
    rcases parseRecord buf with _ | ⟨⟨group, offset⟩, rest⟩
    · rfl
    · dsimp only
      rw [ih]
      simp only [length_cons, insertAll, foldl_cons]
      rw [Nat.add_assoc, Nat.add_comm 1]

/-- **What `open` finds**: the records up to the tail, and no tail any more. -/
theorem open_eq (log : Bytes) : FileOffsets.open log = ⟨recordCodec.frames (recordCodec.records log), true,
      insertAll ∅ (recordCodec.records log), (recordCodec.records log).length⟩ := by
  have hlog := recordCodec.frames_records log
  have htake : log.take (log.length - (recordCodec.tail log).length) =
      recordCodec.frames (recordCodec.records log) := by
    have hlen := congrArg length hlog
    rw [length_append] at hlen
    rw [← hlen, Nat.add_sub_cancel]
    nth_rewrite 2 [← hlog]
    rw [take_left]
  simp only [FileOffsets.open, replay, replayLoop_eq, Nat.zero_add]
  rw [← htake]
  rfl

end Replay

section Maps

/-- Commits as assignments. -/
def settings (values : List (String × UInt64)) : List (String × Option UInt64) :=
  values.map fun value => (value.1, some value.2)

theorem insertAll_eq (map : OffsetMap) (values : List (String × UInt64)) :
    insertAll map values = assignAll map (settings values) := by
  rw [insertAll, assignAll, settings, foldl_map]
  rfl

variable {map : OffsetMap}

theorem mem_entriesOf {value : String × UInt64} : value ∈ entriesOf map ↔ map.lookup value.1 = some value.2 := by
  simp only [entriesOf, mem_filterMap, Option.map_eq_some_iff]
  constructor
  · rintro ⟨group, -, offset, hlookup, rfl⟩
    exact hlookup
  · intro h
    refine ⟨value.1, mem_sortedKeys.2 ?_, value.2, h, rfl⟩
    rw [← lookup_isSome, h]
    rfl

/-- The entries of a map make the map. -/
theorem lookup_insertAll_entriesOf (map : OffsetMap) (group : String) :
    (insertAll ∅ (entriesOf map)).lookup group = map.lookup group := by
  have hagree : ∀ u ∈ settings (entriesOf map), map.lookup u.1 = u.2 := by
    intro u hu
    obtain ⟨value, hvalue, rfl⟩ := mem_map.1 hu
    exact mem_entriesOf.1 hvalue
  rw [insertAll_eq, lookup_assignAll_of_agree hagree]
  split_ifs with hmem
  · rfl
  · rcases hlookup : map.lookup group with _ | offset
    · exact lookup_empty group
    · refine absurd (mem_map.2 ⟨(group, some offset), ?_, rfl⟩) hmem
      exact mem_map.2 ⟨(group, offset), mem_entriesOf.2 hlookup, rfl⟩

variable {map map' : OffsetMap}

/-- What a call assigns depends on nothing but what the groups have. -/
theorem lookup_insertAll_congr (h : ∀ group, map.lookup group = map'.lookup group)
    (values : List (String × UInt64)) (group : String) :
    (insertAll map values).lookup group = (insertAll map' values).lookup group := by
  rw [insertAll_eq, insertAll_eq, lookup_assignAll, lookup_assignAll, h]

theorem restored_eq (map : OffsetMap) (snapshots : List OffsetSnapshot) : restored map snapshots =
      assignAll map (snapshots.map fun snapshot => (snapshot.group, snapshot.offset)) := by
  rw [restored, assignAll, foldl_map]
  congr 1
  funext map snapshot
  rcases snapshot.offset <;> rfl

/-- What is in the log, by group. -/
def logged (log : Bytes) : OffsetMap := insertAll ∅ (recordCodec.records log)

variable {values : List (String × UInt64)}

theorem logged_append {log t : Bytes} (hlog : recordCodec.tail log = [])
    (hfits : ∀ value ∈ values, NameFits value.1) (ht : recordCodec.parse t = none) :
    logged (log ++ (recordCodec.frames values ++ t)) = insertAll (logged log) values := by
  rw [logged, (Codec.records_append (K := recordCodec) _ hlog hfits ht).1, insertAll, foldl_append]
  rfl

theorem lookup_logged_entriesOf (hfits : ∀ value ∈ entriesOf map, NameFits value.1)
    (group : String) : (logged (recordCodec.frames (entriesOf map))).lookup group = map.lookup group := by
  have h := (Codec.records_frames (K := recordCodec) hfits Codec.parse_nil).1
  rw [append_nil] at h
  rw [logged, h, lookup_insertAll_entriesOf]

theorem tail_frames (hfits : ∀ value ∈ values, NameFits value.1) :
    recordCodec.tail (recordCodec.frames values) = [] := by
  have h := (Codec.records_frames (K := recordCodec) hfits Codec.parse_nil).2
  rwa [append_nil] at h

/-- Every group of the map has a name that can be written. -/
def Named (map : OffsetMap) : Prop := ∀ group ∈ map, NameFits group

theorem named_iff : Named map ↔ ∀ value ∈ entriesOf map, NameFits value.1 := by
  constructor
  · intro h value hvalue
    refine h value.1 ?_
    rw [← lookup_isSome, mem_entriesOf.1 hvalue]
    rfl
  · intro h group hgroup
    obtain ⟨offset, hoffset⟩ := Option.isSome_iff_exists.1 (lookup_isSome.2 hgroup)
    exact h (group, offset) (mem_entriesOf.2 hoffset)

/-- Maps with the same look-ups have the same names. -/
theorem Named.congr (h : Named map) (heq : ∀ group, map'.lookup group = map.lookup group) :
    Named map' := by
  intro group hgroup
  rw [← lookup_isSome, heq, lookup_isSome] at hgroup
  exact h group hgroup

theorem Named.insertAll (h : Named map)
    (hfits : ∀ value ∈ values, NameFits value.1) : Named (Offsets.insertAll map values) := by
  intro group hgroup
  rw [← lookup_isSome, insertAll_eq, lookup_assignAll] at hgroup
  rcases hlatest : latest (settings values) group with _ | v
  · rw [hlatest] at hgroup
    exact h group (lookup_isSome.1 hgroup)
  · obtain ⟨value, hvalue, heq⟩ := mem_map.1 (mem_of_latest hlatest)
    cases heq
    exact hfits value hvalue

theorem named_insertAll_iff (h : Named map) : Named (insertAll map values) ↔ ∀ value ∈ values, NameFits value.1 := by
  refine ⟨fun hall value hvalue => hall value.1 ?_, h.insertAll⟩
  have hmem : value.1 ∈ (settings values).map Prod.fst :=
    mem_map_of_mem (mem_map_of_mem hvalue)
  rcases hlatest : latest (settings values) value.1 with _ | v
  · exact absurd hmem (latest_eq_none_iff.1 hlatest)
  · obtain ⟨value', -, heq⟩ := mem_map.1 (mem_of_latest hlatest)
    rw [← lookup_isSome, insertAll_eq, lookup_assignAll, hlatest, ← (Prod.mk.inj heq).2]
    rfl

theorem named_logged (log : Bytes) : Named (logged log) :=
  Named.insertAll (fun group hgroup => absurd hgroup (notMem_empty group)) (recordCodec.fits_records log)

end Maps

section Calls

variable {f : FileOffsets}

/-- What rewriting the log can do: nothing, or the log is the map's records and the call may still fail. -/
theorem rewriteMap_cases (f : FileOffsets) (map : OffsetMap) (fault : Option RewriteFault) :
    (∃ e, f.rewriteMap map fault = (f, .error e) ∧ (fault = none → ¬ Named map ∧ e = nameTooLong)) ∨
    Named map ∧ ((fault = some .reopen ∧ f.rewriteMap map fault =
          ({ f with log := recordCodec.frames (entriesOf map), attached := false }, .error .disk)) ∨
        (fault = some .fsyncDir ∧ f.rewriteMap map fault =
          (⟨recordCodec.frames (entriesOf map), true, f.map, map.entries.length⟩, .error .disk)) ∨
        (fault = none ∧ f.rewriteMap map fault =
          (⟨recordCodec.frames (entriesOf map), true, map, map.entries.length⟩, .ok ()))) := by
  by_cases hcreate : fault = some .create
  · exact .inl ⟨.disk, by rw [rewriteMap, if_pos hcreate], fun h => by cases h.symm.trans hcreate⟩
  by_cases hnamed : Named map
  · have hencode : encodeAll (entriesOf map) = .ok (recordCodec.frames (entriesOf map)) := by
      rw [encodeAll_eq, if_pos (named_iff.1 hnamed)]
    rw [rewriteMap, if_neg hcreate, hencode]
    rcases fault with _ | (_ | _ | _ | _)
    · exact .inr ⟨hnamed, .inr (.inr ⟨rfl, rfl⟩)⟩
    · exact absurd rfl hcreate
    · exact .inl ⟨.disk, rfl, nofun⟩
    · exact .inr ⟨hnamed, .inl ⟨rfl, rfl⟩⟩
    · exact .inr ⟨hnamed, .inr (.inl ⟨rfl, rfl⟩)⟩
  · refine .inl ⟨nameTooLong, ?_, fun _ => ⟨hnamed, rfl⟩⟩
    rw [rewriteMap, if_neg hcreate, encodeAll_eq, if_neg fun h => hnamed (named_iff.2 h)]

variable (T : Trigger)

/-- What appending records can do: nothing, if a name cannot be written; a prefix of them, if the disk fails;
or all of them, and then perhaps a compaction. -/
theorem commitMany_cases (f : FileOffsets) (values : List (String × UInt64)) (fault : Option Fault) :
    (¬ (∀ value ∈ values, NameFits value.1) ∧ f.commitMany T values fault = (f, .error nameTooLong)) ∨
    (∀ value ∈ values, NameFits value.1) ∧ ((∃ n, ¬ (fault = none ∨ ∃ at', fault = some (.rewrite at')) ∧
          f.commitMany T values fault = (f.write ((recordCodec.frames values).take n), .error .disk)) ∨
        ((fault = none ∨ ∃ at', fault = some (.rewrite at')) ∧ f.commitMany T values fault =
          (f.recorded values (recordCodec.frames values)).maybeCompact T (Fault.onRewrite fault))) := by
  by_cases hfits : ∀ value ∈ values, NameFits value.1
  · refine .inr ⟨hfits, ?_⟩
    rw [commitMany, encodeAll_eq, if_pos hfits]
    rcases fault with _ | (n | _ | at')
    · exact .inr ⟨.inl rfl, rfl⟩
    · exact .inl ⟨n, by simp, rfl⟩
    · exact .inl ⟨(recordCodec.frames values).length, by simp, by rw [take_length]⟩
    · exact .inr ⟨.inr ⟨at', rfl⟩, rfl⟩
  · exact .inl ⟨hfits, by rw [commitMany, encodeAll_eq, if_neg hfits]⟩

end Calls

end Datarail.Offsets
