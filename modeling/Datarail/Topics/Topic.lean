/-
# A topic and its consumer groups

`crates/datarail-topic/src/lib.rs`: a `Topic` is a `ReplayLog` of records `[u32 key_len][key][payload]`, and a
`Group` is a set of members and a cursor into it.  `dispatch_next` reads the next record for a group and routes its
key to a member (`Router` of `crates/datarail-keyrouter`, the member of the largest weight).

A group keeps its reader between calls.  A reader ends where the log ended when it was made, so the call that finds
its end answers `None`, whatever was produced since, and drops it; the next call makes a new one at the cursor.
-/

import Datarail.Replaylog.Refinement
import Mathlib.Data.List.MinMax
import Mathlib.Data.Prod.Lex

namespace Datarail.Topics

open Lib List
open Replaylog (ReplayLog Replay ReplayError Files View Glance)

abbrev Bytes := List UInt8

section Router

/-- `mix64`. -/
def mix64 (x : UInt64) : UInt64 :=
  let x := x ^^^ (x >>> 33)
  let x := x * 0xff51afd7ed558ccd
  let x := x ^^^ (x >>> 33)
  let x := x * 0xc4ceb9fe1a85ec53
  x ^^^ (x >>> 33)

/-- `fnv1a`. -/
def fnv1a (bytes : Bytes) : UInt64 :=
  bytes.foldl (fun h b => (h ^^^ b.toUInt64) * 0x00000100000001b3) 0xcbf29ce484222325

/-- `weight`. -/
def weight (keyHash node : UInt64) : UInt64 := mix64 (keyHash ^^^ mix64 node)

structure Router where
  nodes : List UInt64
  deriving DecidableEq, Repr

namespace Router

/-- `add_node`. -/
def addNode (r : Router) (id : UInt64) : Router × Bool :=
  if id ∈ r.nodes then (r, false) else (⟨r.nodes ++ [id]⟩, true)

/-- `from_nodes`. -/
def fromNodes (nodes : List UInt64) : Router := nodes.foldl (fun r n => (r.addNode n).1) ⟨[]⟩

/-- `remove_node`. -/
def removeNode (r : Router) (id : UInt64) : Router × Bool :=
  if id ∈ r.nodes then (⟨r.nodes.erase id⟩, true) else (r, false)

/-- One node of the loop of `route_keyhash`, with the best one so far and its weight. -/
def better (keyHash : UInt64) (best : Option (UInt64 × UInt64)) (node : UInt64) : Option (UInt64 × UInt64) :=
  let w := weight keyHash node
  match best with
  | none => some (w, node)
  | some (bw, bn) => if bw < w ∨ (w = bw ∧ node < bn) then some (w, node) else some (bw, bn)

/-- `route_keyhash`. -/
def routeKeyhash (r : Router) (keyHash : UInt64) : Option UInt64 :=
  (r.nodes.foldl (better keyHash) none).map Prod.snd

/-- `route`. -/
def route (r : Router) (key : Bytes) : Option UInt64 := r.routeKeyhash (fnv1a key)

/-- How nodes are preferred for a key: by weight from the largest on, then by id. -/
def pref (keyHash node : UInt64) : ℕᵒᵈ ×ₗ ℕ := toLex (.toDual (weight keyHash node).toNat, node.toNat)

theorem pref_lt {keyHash a b : UInt64} : pref keyHash a < pref keyHash b ↔
    weight keyHash b < weight keyHash a ∨ (weight keyHash a = weight keyHash b ∧ a < b) := by
  rw [pref, pref, Prod.Lex.toLex_lt_toLex, OrderDual.toDual_lt_toDual, OrderDual.toDual_inj, UInt64.toNat_inj]
  rfl

/-- A key goes to the node that is preferred to all others. -/
theorem routeKeyhash_eq_argmin (r : Router) (keyHash : UInt64) :
    r.routeKeyhash keyHash = r.nodes.argmin (pref keyHash) := by
  obtain ⟨nodes⟩ := r
  have hfold : nodes.foldl (better keyHash) none = (nodes.argmin (pref keyHash)).map fun n => (weight keyHash n, n) := by
    induction nodes using reverseRecOn with
    | nil => rfl
    | append_singleton nodes node ih =>
      rw [foldl_append, foldl_cons, foldl_nil, ih, argmin_concat]
      cases nodes.argmin (pref keyHash) with
      | none => rfl
      | some best =>
        simp only [better, Option.map_some, pref_lt]
        split_ifs <;> rfl
  rw [routeKeyhash, hfold, Option.map_map]
  exact congrFun Option.map_id _

/-- A key is routed if there is a node. -/
theorem exists_routeKeyhash {r : Router} (h : r.nodes ≠ []) (keyHash : UInt64) :
    ∃ member, r.routeKeyhash keyHash = some member := by
  rw [routeKeyhash_eq_argmin]
  exact Option.ne_none_iff_exists'.1 (mt argmin_eq_none.1 h)

end Router

end Router

/-- `TopicError`. -/
inductive TopicError where
  | log (e : ReplayError)
  | corrupt
  | noMembers
  deriving DecidableEq, Repr

structure Dispatched where
  member : UInt64
  offset : ℕ
  key : Bytes
  payload : Bytes
  deriving DecidableEq, Repr

/-- A record as it is stored. -/
def recordOf (key payload : Bytes) : Bytes := leBytes 4 key.length ++ key ++ payload

/-- `split_record`. -/
def splitRecord (rec : Bytes) : Option (Bytes × Bytes) :=
  if rec.length < 4 then none
  else
    let keyLen := leNat (rec.take 4)
    let body := rec.drop 4
    if body.length < keyLen then none else some (body.take keyLen, body.drop keyLen)

/-- What was stored is found again. -/
theorem splitRecord_recordOf {key : Bytes} (h : key.length < 2 ^ 32) (payload : Bytes) :
    splitRecord (recordOf key payload) = some (key, payload) := by
  have hlen : (leBytes 4 key.length).length = 4 := length_leBytes 4 _
  have htake : (recordOf key payload).take 4 = leBytes 4 key.length := by
    rw [recordOf, append_assoc, take_left' hlen]
  have hdrop : (recordOf key payload).drop 4 = key ++ payload := by
    rw [recordOf, append_assoc, drop_left' hlen]
  have hkey : leNat (leBytes 4 key.length) = key.length := leNat_leBytes_of_lt h
  have hshort : ¬ (recordOf key payload).length < 4 := by
    rw [recordOf, append_assoc, length_append, hlen]
    omega
  rw [splitRecord, if_neg hshort]
  dsimp only
  rw [htake, hdrop, hkey, length_append, if_neg (Nat.not_lt.2 (Nat.le_add_right _ _)), take_left' rfl, drop_left' rfl]

structure Group where
  router : Router
  cursor : ℕ
  replay : Option Replay

namespace Group

/-- `Group::new`. -/
def new (members : List UInt64) : Group := ⟨.fromNodes members, 0, none⟩

/-- `add_member`. -/
def addMember (g : Group) (id : UInt64) : Group := { g with router := (g.router.addNode id).1 }

/-- `remove_member`. -/
def removeMember (g : Group) (id : UInt64) : Group := { g with router := (g.router.removeNode id).1 }

/-- `seek`. -/
def seek (g : Group) (offset : ℕ) : Group := { g with cursor := offset, replay := none }

end Group

/-- What a reader finds during one call: the files as they are, each read shorter than a chunk by `short` bytes. -/
def during (f : Files) (short : ℕ) : View := fun _ => ⟨f.segments, short⟩

structure Topic where
  log : ReplayLog

namespace Topic

/-- `Topic::open`. -/
def «open» (files : Files) (segmentBytes : ℕ) : Topic := ⟨.open files segmentBytes⟩

/-- `produce`. -/
def produce (t : Topic) (key payload : Bytes) : Topic × Except TopicError ℕ :=
  if 2 ^ 32 ≤ key.length then (t, .error .corrupt)
  else
    match t.log.append .none (recordOf key payload) with
    | (log, .error e) => (⟨log⟩, .error (.log e))
    | (log, .ok offset) => (⟨log⟩, .ok offset)

/-- `sync`. -/
def sync (t : Topic) : Topic × Except TopicError Unit :=
  match t.log.sync .none with
  | (log, .error e) => (⟨log⟩, .error (.log e))
  | (log, .ok ()) => (⟨log⟩, .ok ())

/-- `end_offset`. -/
def endOffset (t : Topic) : ℕ := t.log.writeOffset

/-- The reader of a group, made at its cursor if it has none. -/
def reader (t : Topic) (view : View) (g : Group) : Except ReplayError Replay :=
  match g.replay with
  | some r => .ok r
  | none => t.log.replayFrom view g.cursor

/-- `dispatch_next`.  How far a reader got in a `read_next` that failed on I/O is left out: it is taken as it was
before the call. -/
def dispatchNext (t : Topic) (short : ℕ) (g : Group) : Group × Except TopicError (Option Dispatched) :=
  if g.router.nodes = [] then (g, .error .noMembers)
  else
    let view := during t.log.files short
    match t.reader view g with
    | .error e => (g, .error (.log e))
    | .ok r =>
      match r.readNext view with
      | .error e => ({ g with replay := some r }, .error (.log e))
      | .ok (_, none) => ({ g with replay := none }, .ok none)
      | .ok (r, some (offset, rec)) =>
        let g := { g with replay := some r }
        match splitRecord rec with
        | none => (g, .error .corrupt)
        | some (key, payload) =>
          let g := { g with cursor := offset + 8 + rec.length }
          match g.router.route key with
          | none => (g, .error .corrupt)
          | some member => (g, .ok (some { member, offset, key, payload }))

end Topic

end Datarail.Topics
