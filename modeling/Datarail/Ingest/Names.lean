/-
# Names in storage

The texts that topics, groups and producers are stored under (`crates/datarail-cli/src/main.rs`): the key of a
committed offset (`offset_key`), the stream of a watermark (`eos_stream_id`) and the directory of a partition's
log (`partition_dir`).  A client chooses the topic and the group freely.  All three are injective
(`names_injective`), and a directory name is made of hexadecimal digits and minus signs only.
-/

import Datarail.Ingest.Identity
import Datarail.Kafka.TxnOffsets

namespace Datarail.Ingest

open Lib Kafka List

/-- The digits of `partition_dir`. -/
def hexDigits : List Char := "0123456789abcdef".toList

/-- The two digits of a byte. -/
def hexByte (b : UInt8) : List Char :=
  [hexDigits.getD (b >>> 4).toNat '0', hexDigits.getD (b &&& 0x0f).toNat '0']

/-- The name of the directory that `partition_dir` gives. -/
def partitionDir (tp : TopicPartition) : String :=
  .ofList ((utf8 tp.topic).flatMap hexByte) ++ "-" ++ toString tp.partition

/-- The byte of two digits. -/
def unhex (digits : List Char) : UInt8 := digits.foldl (fun acc c => 16 * acc + .ofNat (hexDigits.idxOf c)) 0

theorem hexByte_spec (b : UInt8) : unhex (hexByte b) = b ∧ ∀ c ∈ hexByte b, c ∈ hexDigits := by
  have hall : ∀ n < 256, unhex (hexByte (.ofNat n)) = .ofNat n ∧ (hexByte (.ofNat n)).all hexDigits.contains := by
    decide +kernel
  have hb := hall b.toNat b.toNat_lt
  rw [UInt8.ofNat_toNat, all_eq_true] at hb
  exact ⟨hb.1, fun c hc => contains_iff_mem.1 (hb.2 c hc)⟩

theorem flatMap_hexByte_inj {s t : Bytes} (h : s.flatMap hexByte = t.flatMap hexByte) : s = t := by
  induction s generalizing t with
  | nil =>
    cases t with
    | nil => rfl
    | cons b t => cases h
  | cons a s ih =>
    cases t with
    | nil => cases h
    | cons b t =>
      obtain ⟨hbyte, hrest⟩ := append_inj h (rfl : (hexByte a).length = (hexByte b).length)
      rw [← (hexByte_spec a).1, hbyte, (hexByte_spec b).1, ih hrest]

theorem mem_flatMap_hexByte {s : Bytes} {c : Char} (h : c ∈ s.flatMap hexByte) : c ∈ hexDigits := by
  obtain ⟨b, -, hc⟩ := mem_flatMap.1 h
  exact (hexByte_spec b).2 c hc

theorem toList_partitionDir (tp : TopicPartition) :
    (partitionDir tp).toList = (utf8 tp.topic).flatMap hexByte ++ '-' :: tp.partition.repr.toList := by
  rw [partitionDir, String.toList_append, String.toList_append, String.toList_ofList, append_assoc]
  rfl

theorem partitionDir_injective : Function.Injective partitionDir := by
  rintro ⟨t, p⟩ ⟨t', p'⟩ h
  have hnone {s : Bytes} : '-' ∉ s.flatMap hexByte := fun hmem => absurd (mem_flatMap_hexByte hmem) (by decide)
  have hlist := congrArg String.toList h
  rw [toList_partitionDir, toList_partitionDir] at hlist
  obtain ⟨ht, hp⟩ := append_cons_inj hnone hnone hlist
  obtain rfl := utf8Bytes_inj (flatMap_hexByte_inj ht)
  obtain rfl := intRepr_inj (String.toList_inj.1 hp)
  rfl

theorem mem_partitionDir {tp : TopicPartition} {c : Char} (h : c ∈ (partitionDir tp).toList) :
    c = '-' ∨ c ∈ hexDigits ∨ c.isDigit = true := by
  have hnumber {c : Char} (hc : c ∈ tp.partition.repr.toList) : c = '-' ∨ c.isDigit = true := by
    have hdigit {c} := Nat.isDigit_of_mem_toDigits (b := 10) (n := tp.partition.natAbs) (c := c) (by decide) le_rfl
    rcases toList_intRepr tp.partition with ⟨-, heq⟩ | ⟨-, heq⟩ <;> rw [heq] at hc
    · exact .inr (hdigit hc)
    · exact (mem_cons.1 hc).imp_right hdigit
  rw [toList_partitionDir, mem_append, mem_cons] at h
  rcases h with h | h | h
  · exact .inr (.inl (mem_flatMap_hexByte h))
  · exact .inl h
  · exact (hnumber h).imp_right .inr

/-- **Names never collide**, and the name of a partition's directory is none that means another place. -/
theorem names_injective :
    (∀ group group' tp tp', offsetKey group tp = offsetKey group' tp' → group = group' ∧ tp = tp') ∧
    (∀ (routeId routeId' : Arr 16) (topic topic' : String) (p p' : Int32) (pid pid' : Int64) (epoch epoch' : Int16),
      eosStreamId routeId.1 topic p.toInt pid.toInt epoch.toInt =
        eosStreamId routeId'.1 topic' p'.toInt pid'.toInt epoch'.toInt →
      routeId = routeId' ∧ topic = topic' ∧ p = p' ∧ pid = pid' ∧ epoch = epoch') ∧
    Function.Injective partitionDir ∧
    ∀ tp, '/' ∉ (partitionDir tp).toList ∧ '\\' ∉ (partitionDir tp).toList ∧ partitionDir tp ≠ "." ∧
      partitionDir tp ≠ ".." ∧ partitionDir tp ≠ "consumer-offsets" := by
  have hnone {c : Char} {tp} (hc : ¬ (c = '-' ∨ c ∈ hexDigits ∨ c.isDigit = true)) : c ∉ (partitionDir tp).toList :=
    fun hmem => hc (mem_partitionDir hmem)
  have hne {name : String} {tp} (c : Char) (hmem : c ∈ name.toList)
      (hc : ¬ (c = '-' ∨ c ∈ hexDigits ∨ c.isDigit = true)) : partitionDir tp ≠ name := fun h => hnone hc (h ▸ hmem)
  refine ⟨fun _ _ _ _ => offsetKey_inj.1, ?_, partitionDir_injective, fun tp => ⟨hnone (by decide), hnone (by decide),
    hne '.' (by decide) (by decide), hne '.' (by decide) (by decide), hne 'o' (by decide) (by decide)⟩⟩
  intro routeId routeId' topic topic' p p' pid pid' epoch epoch' h
  have hp := And.intro (p.le_toInt) (p.toInt_lt)
  have hp' := And.intro (p'.le_toInt) (p'.toInt_lt)
  have hpid := And.intro (pid.le_toInt) (pid.toInt_lt)
  have hpid' := And.intro (pid'.le_toInt) (pid'.toInt_lt)
  have hepoch := And.intro (epoch.le_toInt) (epoch.toInt_lt)
  have hepoch' := And.intro (epoch'.le_toInt) (epoch'.toInt_lt)
  obtain ⟨hr, ht, h₁, h₂, h₃⟩ := eosStreamId_inj (routeId.2.trans routeId'.2.symm) (by rw [abs_lt]; omega)
    (by rw [abs_lt]; omega) (by rw [abs_lt]; omega) h
  exact ⟨Subtype.ext hr, ht, Int32.toInt_inj.1 h₁, Int64.toInt_inj.1 h₂, Int16.toInt_inj.1 h₃⟩

end Datarail.Ingest
