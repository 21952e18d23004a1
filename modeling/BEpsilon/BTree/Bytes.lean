import BEpsilon.Lib.ObjectBytes
import BEpsilon.Buffer.Layout
import BEpsilon.BTree.Filled

/-!
# BEpsilon.BTree.Bytes — the B-tree's nodes on their pages

A node lies on its page as `BNode.h` lays it out: the object of the leaf or of the inner node from the first byte
on, and in the last byte whether it is a leaf.  `FitsPage` is what the static asserts say about the capacities; then
a node that keeps to its arrays, with children of 64 bits, is read back from the bytes of its page.
-/

namespace BEpsilon.BTree

open File Buffer

variable {K V : Type} [ObjectBytes K] [ObjectBytes V] [Inhabited K] [Inhabited V]

/-- `BLeafNode`: `keys`, `values`, `size`. -/
def leafCodec (K V : Type) [ObjectBytes K] [ObjectBytes V] [Inhabited K] [Inhabited V] (N : NodeSizes) :
    Codec ((Slots K × Slots V) × ℕ) :=
  (((Codec.object K).array N.LEAF_N).field ((Codec.object V).array N.LEAF_N)).field .uint64

/-- `BInnerNode`: `pivots`, `children`, `size`. -/
def innerCodec (K : Type) [ObjectBytes K] [Inhabited K] (N : NodeSizes) : Codec ((Slots K × Slots PageId) × ℕ) :=
  (((Codec.object K).array N.INNER_N).field (Codec.uint64.array (N.INNER_N + 1))).field .uint64

/-- The static asserts on the sizes of the nodes. -/
structure NodeSizes.FitsPage (K V : Type) [ObjectBytes K] [ObjectBytes V] [Inhabited K] [Inhabited V] (N : NodeSizes)
    (B : BlockSize) : Prop where
  leaf : (leafCodec K V N).sizeof < B.bytes
  inner : (innerCodec K N).sizeof < B.bytes

/-- The bytes of `BNodeWrapper`: `data` and `leaf`. -/
def BNode.toBytes (N : NodeSizes) (B : BlockSize) : BNode K V → List UInt8
  | leaf n => padTo (B.bytes - 1) ((leafCodec K V N).toBytes ((n.keys, n.values), n.size)) ++ [1]
  | inner n => padTo (B.bytes - 1) ((innerCodec K N).toBytes ((n.pivots, n.children), n.size)) ++ [0]

/-- `asLeaf` of the bytes. -/
def BLeafNode.ofBytes (N : NodeSizes) (bytes : List UInt8) : BLeafNode K V :=
  let p := (leafCodec K V N).ofBytes (bytes.take (leafCodec K V N).size)
  ⟨p.1.1, p.1.2, p.2⟩

/-- `asInner` of the bytes. -/
def BInnerNode.ofBytes (N : NodeSizes) (bytes : List UInt8) : BInnerNode K :=
  let p := (innerCodec K N).ofBytes (bytes.take (innerCodec K N).size)
  ⟨p.1.1, p.1.2, p.2⟩

/-- `accessNode`: the cast of the bytes of a page, with its `isLeaf`. -/
def BNode.ofBytes (N : NodeSizes) (B : BlockSize) (bytes : List UInt8) : BNode K V :=
  if bytes.getD (B.bytes - 1) 0 = 0 then .inner (BInnerNode.ofBytes N bytes) else .leaf (BLeafNode.ofBytes N bytes)

variable {N : NodeSizes} {B : BlockSize}

theorem NodeSizes.FitsPage.length_toBytes (h : N.FitsPage K V B) (d : BNode K V) :
    (d.toBytes N B).length = B.bytes := by
  have hpos : 48 ≤ B.bytes := B.header_le
  have hpad : ∀ l : List UInt8, l.length < B.bytes → ∀ b, (padTo (B.bytes - 1) l ++ [b]).length = B.bytes := by
    intro l hl b
    rw [List.length_append, length_padTo (by omega), List.length_singleton]
    omega
  cases d with
  | leaf n =>
    exact hpad _ (by rw [Codec.length_toBytes]; exact (Codec.size_le_sizeof _).trans_lt h.leaf) _
  | inner n =>
    exact hpad _ (by rw [Codec.length_toBytes]; exact (Codec.size_le_sizeof _).trans_lt h.inner) _

/-- The nodes on the pages of `B` bytes. -/
def nodeLayout (h : N.FitsPage K V B) : Layout (BNode K V) B where
  toBlock d := ⟨d.toBytes N B, h.length_toBytes d⟩
  ofBlock b := .ofBytes N B b.1

theorem NodeSizes.FitsPage.leaf_lt (h : N.FitsPage K V B) : N.LEAF_N < UInt64.size := by
  have hpos := ObjectBytes.size_pos (α := K)
  have hkeys : N.LEAF_N ≤ ((Codec.object K).array N.LEAF_N).size := Nat.le_mul_of_pos_right _ hpos
  have hpairs := Codec.size_le_offset ((Codec.object K).array N.LEAF_N) ((Codec.object V).array N.LEAF_N)
  have hall := Codec.size_le_offset
    (((Codec.object K).array N.LEAF_N).field ((Codec.object V).array N.LEAF_N)) Codec.uint64
  have hsize : (leafCodec K V N).size < B.bytes := (Codec.size_le_sizeof _).trans_lt h.leaf
  have hbytes := B.fits
  simp only [leafCodec, Codec.field] at hsize hall
  omega

theorem NodeSizes.FitsPage.inner_lt (h : N.FitsPage K V B) : N.INNER_N < UInt64.size := by
  have hall := Codec.size_le_offset
    (((Codec.object K).array N.INNER_N).field (Codec.uint64.array (N.INNER_N + 1))) Codec.uint64
  have hsize : (innerCodec K N).size < B.bytes := (Codec.size_le_sizeof _).trans_lt h.inner
  have hbytes := B.fits
  simp only [innerCodec, Codec.field, Codec.array, Codec.uint64] at hsize hall
  omega

/-- A node that fits is read back from its page. -/
theorem Fit.keeps {R : PageRules} {k : ℕ} {d : BNode K V} (hd : Fit R N k d) (h : N.FitsPage K V B)
    (hids : ∀ j < k, R.ids j < UInt64.size) : (nodeLayout h).ofBlock ((nodeLayout h).toBlock d) = d := by
  have hpos : 48 ≤ B.bytes := B.header_le
  have hlast : ∀ (l : List UInt8) (b : UInt8), (padTo (B.bytes - 1) l ++ [b]).length = B.bytes →
      (padTo (B.bytes - 1) l ++ [b]).getD (B.bytes - 1) 0 = b := by
    intro l b hlen
    have hl : (padTo (B.bytes - 1) l).length = B.bytes - 1 := by
      rw [List.length_append, List.length_singleton] at hlen
      omega
    rw [List.getD_append_right _ _ _ _ hl.le, hl, Nat.sub_self]
    rfl
  cases d with
  | leaf n =>
    have hkeys : ((Codec.object K).array N.LEAF_N).Keeps n.keys :=
      Codec.keeps_array (fun _ _ => Codec.keeps_object _) hd.keys
    have hvalues : ((Codec.object V).array N.LEAF_N).Keeps n.values :=
      Codec.keeps_array (fun _ _ => Codec.keeps_object _) hd.values
    have hsize : Codec.uint64.Keeps n.size := Codec.keeps_uint64 (hd.size_le.trans_lt h.leaf_lt)
    have hkeeps : (leafCodec K V N).Keeps ((n.keys, n.values), n.size) :=
      Codec.keeps_field (Codec.keeps_field hkeys hvalues) hsize
    dsimp only [nodeLayout]
    rw [BNode.ofBytes, BNode.toBytes, hlast _ _ (h.length_toBytes (.leaf n)), if_neg (by decide), BLeafNode.ofBytes,
      hkeeps.ofBytes_padTo]
  | inner n =>
    have hchild : ∀ i, n.children i < UInt64.size := by
      intro i
      rcases hd.2 i with e | ⟨j, hj, e⟩
      · rw [e]
        decide
      · rw [← e]
        exact hids j hj
    have hpivots : ((Codec.object K).array N.INNER_N).Keeps n.pivots :=
      Codec.keeps_array (fun _ _ => Codec.keeps_object _) hd.1.pivots
    have hchildren : (Codec.uint64.array (N.INNER_N + 1)).Keeps n.children :=
      Codec.keeps_array (fun i _ => Codec.keeps_uint64 (hchild i)) hd.1.children
    have hsize : Codec.uint64.Keeps n.size := Codec.keeps_uint64 (hd.1.size_le.trans_lt h.inner_lt)
    have hkeeps : (innerCodec K N).Keeps ((n.pivots, n.children), n.size) :=
      Codec.keeps_field (Codec.keeps_field hpivots hchildren) hsize
    dsimp only [nodeLayout]
    rw [BNode.ofBytes, BNode.toBytes, hlast _ _ (h.length_toBytes (.inner n)), if_pos rfl, BInnerNode.ofBytes,
      hkeeps.ofBytes_padTo]

end BEpsilon.BTree
