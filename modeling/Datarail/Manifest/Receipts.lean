/-
# What a receipt proves

A hash of 32 bytes collides somewhere, so the assumption on it names the strings it is about: those that
are hashed for the log (`hashed`) and for the path that is checked (`climbed`), and no two of them collide
(`CollisionFree`).  The strings under leaves have 80 bytes and those under interior nodes 65, so that a
leaf is never an interior node.

A receipt that `verify_receipt` accepts under a head of the log is about a delivery that was recorded, and
its path is the log's own path for that position (`receipt_sound`).  The index that a proof carries is
another matter: `verify_inclusion` compares it with the tree size and with nothing else, and takes the
sides from the path.  The leaf at the index is the proven one exactly if the path has the sides of a
position with that leaf (`index_bound_iff`).
-/

import Datarail.Manifest.Log

namespace Datarail.Manifest

open Lib Cofre List ManifestLog Merkle

section Preimages

theorem nodePreimage_inj {children children' : Arr 32 × Arr 32} (h : nodePreimage children = nodePreimage children') :
    children = children' := by
  obtain ⟨hl, hr⟩ := append_inj (cons.inj h).2 (by rw [children.1.2, children'.1.2])
  exact Prod.ext (Subtype.ext hl) (Subtype.ext hr)

theorem u64Bytes_inj {x y : UInt64} (h : u64Bytes x = u64Bytes y) : x = y := by
  have hlt : ∀ z : UInt64, z.toNat < 256 ^ 8 := fun z => z.toNat_lt
  have heq := congrArg leNat h
  rw [u64Bytes, u64Bytes, leNat_leBytes_of_lt (hlt x), leNat_leBytes_of_lt (hlt y)] at heq
  exact UInt64.toNat_inj.1 heq

theorem leafPreimage_inj {e e' : Entry} (h : leafPreimage e = leafPreimage e') : e = e' := by
  simp only [leafPreimage, append_assoc] at h
  obtain ⟨hcofre, h⟩ := append_inj h (by rw [e.cofreId.2, e'.cofreId.2])
  obtain ⟨hroute, h⟩ := append_inj h (by rw [e.routeId.2, e'.routeId.2])
  obtain ⟨hstream, h⟩ := append_inj h (by rw [e.streamId.2, e'.streamId.2])
  obtain ⟨hseq, hepoch⟩ := append_inj h (by rw [u64Bytes, u64Bytes, length_leBytes, length_leBytes])
  exact Entry.mk.injEq .. ▸ ⟨Subtype.ext hcofre, Subtype.ext hroute, Subtype.ext hstream, u64Bytes_inj hseq,
    u64Bytes_inj hepoch⟩

theorem leafPreimage_ne_nodePreimage (e : Entry) (children : Arr 32 × Arr 32) :
    leafPreimage e ≠ nodePreimage children := by
  intro h
  have hlen := congrArg length h
  simp only [leafPreimage, nodePreimage, u64Bytes, length_append, length_cons, length_leBytes, e.cofreId.2, e.routeId.2,
    e.streamId.2, children.1.2, children.2.2] at hlen
  cases hlen

end Preimages

section Collisions

variable (C : Crypto)

/-- No two of these strings have the same hash. -/
def CollisionFree (strings : List Bytes) : Prop := ∀ x ∈ strings, ∀ y ∈ strings, C.blake3 x = C.blake3 y → x = y

instance (strings : List Bytes) : Decidable (CollisionFree C strings) :=
  inferInstanceAs (Decidable (∀ x ∈ strings, ∀ y ∈ strings, _))

/-- What is hashed for the tree of a log. -/
def hashed (entries : List Entry) : List Bytes :=
  entries.map leafPreimage ++ (pairs (hashNode C) (record C entries).leaves).map nodePreimage

/-- What is hashed along a path. -/
def climbed (leaf : Arr 32) (path : List ProofStep) : List Bytes :=
  (climbPairs (hashNode C) leaf (path.map ProofStep.pair)).map nodePreimage

variable {C} {entries : List Entry} {strings : List Bytes}

theorem CollisionFree.separates {leaf : Arr 32} {path : List ProofStep}
    (h : CollisionFree C (hashed C entries ++ climbed C leaf path)) :
    Merkle.Separates (hashNode C) (pairs (hashNode C) (record C entries).leaves ++
      climbPairs (hashNode C) leaf (path.map ProofStep.pair)) := by
  have hmem : ∀ p ∈ pairs (hashNode C) (record C entries).leaves ++
      climbPairs (hashNode C) leaf (path.map ProofStep.pair),
      nodePreimage p ∈ hashed C entries ++ climbed C leaf path := by
    intro p hp
    rcases mem_append.1 hp with hp | hp
    · exact mem_append_left _ (mem_append_right _ (mem_map_of_mem hp))
    · exact mem_append_right _ (mem_map_of_mem hp)
  exact fun p hp q hq heq => nodePreimage_inj (h _ (hmem p hp) _ (hmem q hq) heq)

end Collisions

section Position

variable {C : Crypto} {entries : List Entry}

theorem getElem?_record {i : ℕ} {e : Entry} (h : entries[i]? = some e) :
    (record C entries).leaves[i]? = some (leafHash C e) := by
  rw [leaves_record, getElem?_map, h, Option.map_some]

variable {path : List ProofStep}

/-- **A leaf that climbs to the root stands in the tree**, and its path is the tree's path for that position. -/
theorem exists_position {preimages strings : List Bytes} {leaf : Bytes} (hfree : CollisionFree C strings)
    (hleaves : ∀ x ∈ leaf :: preimages, x ∈ strings ∧ ∀ children, x ≠ nodePreimage children)
    (hnodes : ∀ p ∈ pairs (hashNode C) (preimages.map C.blake3) ++
      climbPairs (hashNode C) (C.blake3 leaf) (path.map ProofStep.pair), nodePreimage p ∈ strings)
    (hroot : root (hashNode C) (preimages.map C.blake3) =
      some (climb (hashNode C) (C.blake3 leaf) (path.map ProofStep.pair))) :
    ∃ i, preimages[i]? = some leaf ∧
      path.map ProofStep.pair = pathOf (hashNode C) (preimages.map C.blake3) i := by
  have hne {x : Bytes} (hx : x ∈ leaf :: preimages) {p : Arr 32 × Arr 32} (hp : nodePreimage p ∈ strings) :
      hashNode C p.1 p.2 ≠ C.blake3 x :=
    fun heq => (hleaves x hx).2 p (hfree _ (hleaves x hx).1 _ hp heq.symm)
  obtain ⟨lower, i, hpath, hi⟩ := exists_entry hroot
    (fun p hp q hq heq => nodePreimage_inj (hfree _ (hnodes p hp) _ (hnodes q hq) heq))
    fun p hp => hne mem_cons_self (hnodes p (mem_append_left _ hp))
  rw [getElem?_map] at hi
  obtain ⟨x, hx, hblake⟩ := Option.map_eq_some_iff.1 hi
  have hmem : x ∈ leaf :: preimages := mem_cons_of_mem _ (mem_of_getElem? hx)
  rcases eq_nil_or_concat lower with rfl | ⟨lower, step, rfl⟩
  · obtain rfl := hfree _ (hleaves x hmem).1 _ (hleaves leaf mem_cons_self).1 hblake
    exact ⟨i, hx, hpath⟩
  · -- the climb would pass through an interior node where the tree has a leaf
    rw [concat_eq_append, climb_concat] at hblake
    refine absurd hblake.symm (hne hmem (hnodes _ (mem_append_right _ ?_)))
    rw [hpath, concat_eq_append, append_assoc]
    exact mem_climbPairs_concat _ lower step _

/-- A delivery whose leaf climbs to the root was recorded. -/
theorem exists_recorded {e : Entry} {strings : List Bytes} (hfree : CollisionFree C strings)
    (hsub : hashed C entries ++ climbed C (leafHash C e) path ⊆ strings) (he : leafPreimage e ∈ strings)
    (hroot : root (hashNode C) (record C entries).leaves =
      some (climb (hashNode C) (leafHash C e) (path.map ProofStep.pair))) :
    ∃ i, entries[i]? = some e ∧ path.map ProofStep.pair = pathOf (hashNode C) (record C entries).leaves i := by
  have hleaves : (record C entries).leaves = (entries.map leafPreimage).map C.blake3 := by
    rw [leaves_record, map_map]
    rfl
  rw [hashed, append_subset, append_subset] at hsub
  rw [hleaves] at hsub hroot ⊢
  have hpreimages : ∀ x ∈ leafPreimage e :: entries.map leafPreimage,
      x ∈ strings ∧ ∀ children, x ≠ nodePreimage children := by
    refine forall_mem_cons.2 ⟨⟨he, leafPreimage_ne_nodePreimage e⟩, fun x hx => ⟨hsub.1.1 hx, ?_⟩⟩
    obtain ⟨e', -, rfl⟩ := mem_map.1 hx
    exact leafPreimage_ne_nodePreimage e'
  obtain ⟨i, hi, hpath⟩ := exists_position hfree hpreimages (forall_mem_append.2
    ⟨fun p hp => hsub.1.2 (mem_map_of_mem hp), fun p hp => hsub.2 (mem_map_of_mem hp)⟩) hroot
  rw [getElem?_map] at hi
  obtain ⟨e', he', heq⟩ := Option.map_eq_some_iff.1 hi
  exact ⟨i, he'.trans (congrArg some (leafPreimage_inj heq)), hpath⟩

/-- The path that the log gives for a position. -/
theorem inclusionProof_eq_ok {log : ManifestLog} {i : ℕ} {leaf : Arr 32} (hi : log.leaves[i]? = some leaf)
    (hpath : path.map ProofStep.pair = pathOf (hashNode C) log.leaves i) :
    log.inclusionProof C i = .ok ⟨i, log.leaves.length, path⟩ := by
  refine inclusionProof_eq_ok_iff.2 ⟨(List.getElem?_eq_some_iff.1 hi).1, ?_⟩
  rw [← hpath, map_map]
  exact congrArg (InclusionProof.mk i log.leaves.length) (map_id path).symm

end Position

section Soundness

/-- The signature of a head is the source's: if it is good, the source signed this root and size for the log. -/
def HeadUnforged (C : Crypto) (seed : Arr 32) (log : ManifestLog) (sth : SignedTreeHead) : Prop :=
  verifySth C sth (C.verifyingKey seed) = true → ∃ ts, sthSigningBytes sth.root sth.treeSize sth.ts =
    sthSigningBytes (log.signSth C seed ts).root (log.signSth C seed ts).treeSize ts

theorem sthSigningBytes_inj {root root' : Arr 32} {size size' ts ts' : UInt64}
    (h : sthSigningBytes root size ts = sthSigningBytes root' size' ts') : root = root' ∧ size = size' := by
  simp only [sthSigningBytes, append_assoc] at h
  obtain ⟨hroot, h⟩ := append_inj h (by rw [root.2, root'.2])
  obtain ⟨hsize, -⟩ := append_inj h (by rw [u64Bytes, u64Bytes, length_leBytes, length_leBytes])
  exact ⟨Subtype.ext hroot, u64Bytes_inj hsize⟩

/-- **Receipts are sound.**  If `verify_receipt` accepts a receipt under a head that the source signed for a log,
the delivery it claims was recorded there, its leaf is no interior node of the tree, and its path is the
log's own path for a position of that delivery. -/
theorem receipt_sound (C : Crypto) (entries : List Entry) (seed : Arr 32) (p : DeliveryProof)
    (hvk : p.sourceVk = C.verifyingKey seed)
    (hsth : HeadUnforged C seed (.record C entries) p.sth)
    (hfree : CollisionFree C
      (leafPreimage (p.entry C) :: (hashed C entries ++ climbed C (leafHash C (p.entry C)) p.proof.path)))
    (h : verifyReceipt C p = .ok ()) :
    leafHash C (p.entry C) ∈ (record C entries).leaves ∧ p.entry C ∈ entries ∧
    (∀ children ∈ pairs (hashNode C) (record C entries).leaves,
      hashNode C children.1 children.2 ≠ leafHash C (p.entry C)) ∧
    ∃ i, entries[i]? = some (p.entry C) ∧ (record C entries).inclusionProof C i =
      .ok ⟨i, (record C entries).leaves.length, p.proof.path⟩ := by
  obtain ⟨hsigned, hlt, hsize, hincluded⟩ := verifyReceipt_ok h
  rw [hvk] at hsigned
  obtain ⟨ts, hbytes⟩ := hsth hsigned
  obtain ⟨hroot, htree⟩ := sthSigningBytes_inj hbytes
  obtain ⟨hindex, hclimb⟩ := verifyInclusion_eq_true_iff.1 hincluded
  have hne : (record C entries).leaves ≠ [] := by
    intro hnil
    have hzero : UInt64.ofNat p.proof.treeSize = 0 := by rw [hsize, htree, signSth, hnil]; rfl
    have hnat := congrArg UInt64.toNat hzero
    rw [UInt64.toNat_ofNat_of_lt' hlt, UInt64.toNat_zero] at hnat
    omega
  rw [hroot, rootFromPath_eq] at hclimb
  have hmem : leafPreimage (p.entry C) ∈
      leafPreimage (p.entry C) :: (hashed C entries ++ climbed C (leafHash C (p.entry C)) p.proof.path) :=
    mem_cons_self
  obtain ⟨i, hi, hpath⟩ := exists_recorded hfree (subset_cons_self _ _) hmem ((merkleRoot_eq hne).1 hclimb.symm)
  have hleaf : (record C entries).leaves[i]? = some (leafHash C (p.entry C)) := getElem?_record hi
  refine ⟨mem_of_getElem? hleaf, mem_of_getElem? hi, fun children hchildren heq => ?_, i, hi,
    inclusionProof_eq_ok hleaf hpath⟩
  exact leafPreimage_ne_nodePreimage _ children (hfree _ hmem _
    (mem_cons_of_mem _ (mem_append_left _ (mem_append_right _ (mem_map_of_mem hchildren)))) heq.symm)

/-- Three deliveries on one stream. -/
def deliveries : List Entry :=
  [⟨Crypto.fit 32 [7], Arr.zero 16, Arr.zero 16, 0, 1⟩, ⟨Crypto.fit 32 [8], Arr.zero 16, Arr.zero 16, 1, 1⟩,
    ⟨Crypto.fit 32 [9], Arr.zero 16, Arr.zero 16, 2, 1⟩]

/-- The path of the second of them. -/
def secondPath : List ProofStep :=
  (pathOf (hashNode .transparent) (record .transparent deliveries).leaves 1).map ProofStep.ofPair

/-- The receipt of the second delivery. -/
theorem receipt_sound_second :
    let C := Crypto.transparent
    let log := record C deliveries
    let sth := log.signSth C (Arr.zero 32) 5
    let ack := signAck C (Arr.zero 32) (C.blake3 [8]) (Arr.zero 16) (Arr.zero 16) 1 sth.root 1
    let p : DeliveryProof := ⟨[8], Arr.zero 16, Arr.zero 16, 1, 1, ⟨1, 3, secondPath⟩, sth,
      C.verifyingKey (Arr.zero 32), ack, C.verifyingKey (Arr.zero 32)⟩
    verifyReceipt C p = .ok () ∧ p.entry C ∈ deliveries := by
  intro C log sth ack p
  have haccepted : verifyReceipt C p = .ok () := by decide +kernel
  exact ⟨haccepted, (receipt_sound C deliveries (Arr.zero 32) p rfl (fun _ => ⟨5, rfl⟩) (by decide +kernel)
    haccepted).2.1⟩

end Soundness

section Index

/-- **What the index of an accepted proof is worth.**  It is below the size of the log, and the leaf that stands
there is the proven one exactly if the path has the sides of the path of a position with that leaf. -/
theorem index_bound_iff (C : Crypto) (entries : List Entry) (leaf : Arr 32) (proof : InclusionProof)
    (hfree : CollisionFree C (hashed C entries ++ climbed C leaf proof.path))
    (hsize : proof.treeSize = (record C entries).leaves.length)
    (h : verifyInclusion C leaf proof ((record C entries).root C) = true) :
    proof.index < (record C entries).leaves.length ∧
    ((record C entries).leaves[proof.index]? = some leaf ↔ ∃ i own, (record C entries).inclusionProof C i = .ok own ∧
        own.path.map ProofStep.siblingIsRight = proof.path.map ProofStep.siblingIsRight ∧
        (record C entries).leaves[i]? = (record C entries).leaves[proof.index]?) := by
  obtain ⟨hindex, hclimb⟩ := verifyInclusion_eq_true_iff.1 h
  rw [hsize] at hindex
  rw [rootFromPath_eq] at hclimb
  have hroot := (merkleRoot_eq (ne_nil_of_length_pos (by omega))).1 hclimb.symm
  refine ⟨hindex, fun hleaf => ?_, ?_⟩
  · rw [leaves_record, getElem?_map] at hleaf
    obtain ⟨e, he, rfl⟩ := Option.map_eq_some_iff.1 hleaf
    obtain ⟨i, hi, hpath⟩ := exists_recorded hfree (Subset.refl _)
      (mem_append_left _ (mem_append_left _ (mem_map_of_mem (mem_of_getElem? he)))) hroot
    exact ⟨i, _, inclusionProof_eq_ok (getElem?_record hi) hpath, rfl, by rw [getElem?_record hi, getElem?_record he]⟩
  · rintro ⟨i, own, hown, hsides, hsame⟩
    obtain ⟨hi, rfl⟩ := inclusionProof_eq_ok_iff.1 hown
    rw [← hsame]
    refine getElem?_of_sides hi hroot hfree.separates ?_
    rw [map_map] at hsides ⊢
    exact hsides.symm

/-- The log's own proof of the second delivery is about the second leaf. -/
theorem index_bound_own :
    let C := Crypto.transparent
    let log := record C deliveries
    log.leaves[1]? = some (C.blake3 [8]) := by
  intro C log
  exact (index_bound_iff C deliveries (C.blake3 [8]) ⟨1, 3, secondPath⟩ (by decide +kernel) (by decide +kernel)
    (by decide +kernel)).2.2 ⟨1, ⟨1, 3, secondPath⟩, by decide +kernel, rfl, rfl⟩

/-- The same proof with the index `0` is accepted, and another leaf stands there.  With the last step of its path
alone, an interior node is accepted for a leaf. -/
theorem index_not_bound :
    let C := Crypto.transparent
    let log := record C deliveries
    let leaf := C.blake3 [8]
    let node := rootFromPath C leaf (secondPath.take 1)
    (CollisionFree C (hashed C deliveries ++ climbed C leaf secondPath) ∧
      verifyInclusion C leaf ⟨0, 3, secondPath⟩ (log.root C) = true ∧ log.leaves[0]? ≠ some leaf) ∧
    verifyInclusion C node ⟨0, 3, secondPath.drop 1⟩ (log.root C) = true ∧ node ∉ log.leaves := by
  decide +kernel

end Index

end Datarail.Manifest
