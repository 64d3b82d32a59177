/-
# The landed-count commit

`commit_at` of `crates/datarail-connectors/src/postgres_sink.rs`, which ships a file or a
replayed source (`Pipeline::ship_batch`).  The watermark of the stream is the number of
records that have landed, and a batch is committed under the number that will have landed
with it: of a batch that the watermark falls into only the rest is copied.

A run starts from the beginning of the source and may cut it into other batches than the
runs before it.  `landed_count_exact` says that the table is the source up to the watermark,
whatever the runs were.
-/

import Datarail.Ingest.Daemon

namespace Datarail.Ingest

open Lib List

/-- The rows of a transaction, and its watermark. -/
def Db.land (db : Db) (stream : Bytes) (watermark : ℤ) (rows : List Bytes) : Db :=
  { table := db.table ++ rows, watermarks := db.watermarks.insert stream watermark }

/-- `txn_body`. -/
def Db.txnBody (db : Db) (stream : Bytes) (watermark : ℤ) (records : List Bytes) : Db :=
  match db.watermarks.get stream with
  | some current =>
    if watermark ≤ current then db
    else
      let base := watermark - records.length
      db.land stream watermark (records.drop (current - base).toNat)
  | none => db.land stream watermark records

/-- `commit_at`. -/
def commitAt (fault : CommitFault) (records : List Bytes) (stream : Bytes) (watermark : ℕ) :
    Action CliError Db Unit :=
  if records.any (·.contains 0) then .halt (.failed (.rail Daemon.nulText))
  else if i64Max < watermark then .halt (.failed (.rail "watermark exceeds i64::MAX"))
  else
    match fault with
    | .none => .modify (·.txnBody stream watermark records)
    | .failed text => .halt (.failed (.rail text))
    | .lost text => do
        Action.modify (·.txnBody stream watermark records)
        Action.halt (.failed (.rail text))

/-- A run: batch after batch, up to the first error.  `landed` is `landed_total`. -/
def land (stream : Bytes) : (landed : ℕ) → List (List Bytes × CommitFault) → Db → Db
  | _, [], db => db
  | landed, (batch, fault) :: rest, db =>
    match (commitAt fault batch stream (landed + batch.length)).run db with
    | (.ok (), db) => land stream (landed + batch.length) rest db
    | (.stop _, db) => db

/-- The watermark of a stream. -/
def Db.watermark (db : Db) (stream : Bytes) : ℕ := ((db.watermarks.get stream).getD 0).toNat

variable {db : Db} {stream : Bytes} {source : List Bytes}

/-- **The invariant**: the table is the source up to the watermark. -/
structure Landed (stream : Bytes) (source : List Bytes) (db : Db) : Prop where
  table : db.table = source.take (db.watermark stream)
  stored : (db.watermarks.get stream).getD 0 = db.watermark stream
  bound : db.watermark stream ≤ source.length

theorem Landed.land {rows : List Bytes} {n : ℕ} (htable : db.table ++ rows = source.take n) (hn : n ≤ source.length) :
    Landed stream source (db.land stream n rows) ∧ n ≤ (db.land stream n rows).watermark stream := by
  have hget : (db.land stream n rows).watermarks.get stream = some (n : ℤ) := Table.get_insert_self _ _ _
  have hmark : (db.land stream n rows).watermark stream = n := by
    rw [Db.watermark, hget]
    rfl
  exact ⟨⟨by rw [hmark]; exact htable, by rw [hget, hmark]; rfl, hmark.le.trans hn⟩, hmark.ge⟩

/-- A transaction lands the part of its batch that is not there. -/
theorem Landed.txnBody (h : Landed stream source db) {before batch : List Bytes} (hpre : before ++ batch <+: source)
    (hpast : before.length ≤ db.watermark stream) :
    let after := db.txnBody stream (before.length + batch.length : ℕ) batch
    Landed stream source after ∧ before.length + batch.length ≤ after.watermark stream := by
  intro after
  have hlen : before.length + batch.length ≤ source.length := by
    have := hpre.length_le
    rwa [length_append] at this
  have hcut : source.take (before.length + batch.length) = before ++ batch := by
    rw [← length_append]
    exact (prefix_iff_eq_take.1 hpre).symm
  have hafter : after = db.txnBody stream (before.length + batch.length : ℕ) batch := rfl
  have hstored := h.stored
  unfold Db.txnBody at hafter
  cases hget : db.watermarks.get stream with
  | none =>
    rw [hget] at hafter hstored
    obtain rfl : before = [] := length_eq_zero_iff.1 (by simp only [Option.getD_none] at hstored; omega)
    have hempty : db.table = [] := by
      rw [h.table, show db.watermark stream = 0 by simp only [Option.getD_none] at hstored; omega, take_zero]
    rw [hafter]
    exact Landed.land (by rw [hempty, hcut]) hlen
  | some current =>
    obtain rfl : current = db.watermark stream := by rwa [hget] at hstored
    rw [hget] at hafter
    dsimp only at hafter
    split_ifs at hafter with hold
    · rw [hafter]
      exact ⟨h, by exact_mod_cast hold⟩
    · rw [hafter]
      refine Landed.land ?_ hlen
      -- the watermark lies inside the batch
      obtain ⟨k, hk⟩ := Nat.exists_eq_add_of_le hpast
      have hrest : ((db.watermark stream : ℤ) - ((before.length + batch.length : ℕ) - batch.length)).toNat = k := by
        omega
      have htable : source.take (db.watermark stream) = before ++ batch.take k := by
        have hmin : source.take (db.watermark stream) =
            (source.take (before.length + batch.length)).take (db.watermark stream) := by
          rw [take_take, min_eq_left (by omega)]
        rw [hmin, hcut, hk, take_length_add_append]
      rw [hrest, h.table, htable, hcut, append_assoc, take_append_drop]

/-- What a run keeps. -/
theorem Landed.run {batches : List (List Bytes × CommitFault)} {before : List Bytes} (h : Landed stream source db)
    (hpre : before ++ (batches.map Prod.fst).flatten <+: source) (hpast : before.length ≤ db.watermark stream) :
    Landed stream source (Ingest.land stream before.length batches db) := by
  induction batches generalizing before db with
  | nil => exact h
  | cons b rest ih =>
    obtain ⟨batch, fault⟩ := b
    rw [map_cons, flatten_cons, ← append_assoc] at hpre
    obtain ⟨hbody, hmark⟩ := h.txnBody ((prefix_append _ _).trans hpre) hpast
    rw [Ingest.land]
    unfold commitAt
    split_ifs with hnul hmax
    · exact h
    · exact h
    cases fault with
    | none =>
      have hnext := ih hbody hpre (by rwa [length_append])
      rwa [length_append] at hnext
    | failed text => exact h
    | lost text => exact hbody

/-- **The table is the source up to the watermark.**  Whatever runs over prefixes of a source came before, cut into
any batches and ended by any error, before or after it took effect: the table has the first records of the source,
as many as the watermark of the stream says, in order and each once. -/
theorem landed_count_exact (stream : Bytes) (source : List Bytes) (runs : List (List (List Bytes × CommitFault)))
    (hruns : ∀ run ∈ runs, (run.map Prod.fst).flatten <+: source) :
    let db := runs.foldl (fun db run => land stream 0 run db) ⟨[], .empty⟩
    db.table = source.take (db.watermark stream) ∧ (db.watermarks.get stream).getD 0 = db.watermark stream ∧
      db.watermark stream ≤ source.length := by
  have hall : ∀ db, Landed stream source db → Landed stream source (runs.foldl (fun db run => land stream 0 run db) db) := by
    induction runs with
    | nil => exact fun _ h => h
    | cons run runs ih =>
      intro db h
      exact ih (fun r hr => hruns r (mem_cons_of_mem _ hr)) _
        (@Landed.run db stream source run [] h (hruns run mem_cons_self) (Nat.zero_le _))
  obtain ⟨htable, hstored, hbound⟩ := hall ⟨[], .empty⟩ ⟨rfl, rfl, Nat.zero_le _⟩
  exact ⟨htable, hstored, hbound⟩

/-- A run loses the answer of its second batch, and the next one ships the source as one. -/
theorem landed_count_exact_resplit :
    let runs := [[([[1], [2]], .none), ([[3]], .lost "reset")], [([[1], [2], [3], [4]], .none)]]
    let db := runs.foldl (fun db run => land [9] 0 run db) ⟨[], .empty⟩
    db.table = [[1], [2], [3], [4]] ∧ db.table = [[1], [2], [3], [4]].take (db.watermark [9]) := by
  refine ⟨by decide, (landed_count_exact [9] [[1], [2], [3], [4]] _ ?_).1⟩
  decide

end Datarail.Ingest
