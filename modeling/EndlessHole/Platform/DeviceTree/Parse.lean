import EndlessHole.Platform.DeviceTree.Grammar
import EndlessHole.Lib.Iterator

/-!
# The iterator parses the structure-block grammar

`FlattenedTreeIter` yields the tokens of a tree from its encoding, and `skip_node` skips a node.

* `Yields it ts it'`: calling `next` once per token of `ts` from `it` yields `ts` and leaves the
  iterator at `it'`.
* The step lemmas `next_beginNode`, `next_endNode`, `next_prop`, `next_end` and `next_nop` say
  what one call of `next` does at the encoding of one item, wherever in the block it stands (at
  an offset that is a multiple of four, with any bytes after it); `next_block` puts them
  together for an item after some `FDT_NOP`s.
* The run lemma `yields_encodeBlocks` follows it over a list of blocks, and
  `skipNodeLoop_of_yields` follows `skip_node` over tokens whose depth count `Closes`.
* `iter_structure_parses_tree` puts them together for a well-formed tree.
-/

namespace EndlessHole.Platform

open Bytes Fdt

namespace FlattenedTreeIter

variable (readU32 : List UInt8 → Option Nat)

/-- Calling `next` once per token of `ts`, from `it`, yields `ts` and leaves the iterator at
`it'`. -/
def Yields : FlattenedTreeIter → List Token → FlattenedTreeIter → Prop
  | it, [], it' => it' = it
  | it, t :: ts, it' => ∃ it₁, next readU32 it = .ok (some t, it₁) ∧ Yields it₁ ts it'

variable {readU32}

theorem yields_iff {it it' : FlattenedTreeIter} {ts : List Token} :
    Yields readU32 it ts it' ↔ Iterator.Yields (next readU32) it ts it' := by
  induction ts generalizing it with
  | nil => exact Iff.rfl
  | cons t ts ih => simp only [Yields, Iterator.yields_cons, ih]

theorem yields_append {it it'' : FlattenedTreeIter} {ts us : List Token} :
    Yields readU32 it (ts ++ us) it'' ↔
      ∃ it', Yields readU32 it ts it' ∧ Yields readU32 it' us it'' := by
  simp only [yields_iff]
  exact Iterator.yields_append

theorem Yields.deterministic {it it₁ it₂ : FlattenedTreeIter} {ts : List Token}
    (h₁ : Yields readU32 it ts it₁) (h₂ : Yields readU32 it ts it₂) : it₁ = it₂ :=
  Iterator.Yields.deterministic (yields_iff.1 h₁) (yields_iff.1 h₂)

/-- Over tokens whose depth count closes at their end, `skip_node`'s loop stops where the tokens
end. -/
theorem skipNodeLoop_of_yields {it it' : FlattenedTreeIter} {ts : List Token} {depth : Nat}
    (hy : Yields readU32 it ts it') (hc : Closes depth ts) :
    skipNodeLoop readU32 it depth = .ok it' := by
  induction ts generalizing it depth with
  | nil => exact hc.elim
  | cons t ts ih =>
    obtain ⟨it₁, hnext, hy⟩ := hy
    rw [skipNodeLoop_of_next readU32 depth hnext]
    cases t with
    | startNode name => exact ih hy hc
    | endNode =>
      rw [Closes] at hc
      dsimp only
      split
      case isTrue h0 =>
        rw [if_pos h0] at hc
        subst hc
        rw [hy]
        rfl
      case isFalse h0 =>
        rw [if_neg h0] at hc
        exact ih hy hc
    | property name data => exact ih hy hc

/-! ## One call of `next` -/

section Steps

variable (hread : ReadsU32BE readU32) {it : FlattenedTreeIter} {rest : List UInt8}
include hread

theorem next_nop (hs : it.dt.structureBlock.drop it.currentOffset = u32be 0x04 ++ rest) :
    next readU32 it = next readU32 { it with currentOffset := it.currentOffset + 4 } := by
  have hin := lt_length_of_drop_eq_cons hs
  rw [next, dif_pos hin.le, hs, readAt_u32be hread (by decide), Fault.ok_bind]
  rfl

theorem next_endNode (hs : it.dt.structureBlock.drop it.currentOffset = u32be 0x02 ++ rest) :
    next readU32 it = .ok (some .endNode, { it with currentOffset := it.currentOffset + 4 }) := by
  have hin := lt_length_of_drop_eq_cons hs
  rw [next, dif_pos hin.le, hs, readAt_u32be hread (by decide), Fault.ok_bind]
  rfl

theorem next_end (hs : it.dt.structureBlock.drop it.currentOffset = u32be 0x09 ++ rest) :
    next readU32 it = .ok (none, { it with currentOffset := it.currentOffset + 4 }) := by
  have hin := lt_length_of_drop_eq_cons hs
  rw [next, dif_pos hin.le, hs, readAt_u32be hread (by decide), Fault.ok_bind]
  rfl

theorem next_beginNode {name : List UInt8} (hname : (0 : UInt8) ∉ name)
    (hs : it.dt.structureBlock.drop it.currentOffset = (Item.beginNode name).encode ++ rest)
    (ho : it.currentOffset % 4 = 0) :
    next readU32 it = .ok (some (.startNode name),
      { it with currentOffset := it.currentOffset + (Item.beginNode name).encode.length }) := by
  have hs : it.dt.structureBlock.drop it.currentOffset =
      u32be 0x01 ++ (name ++ 0 :: (List.replicate ((4 - (name.length + 1) % 4) % 4) 0 ++ rest)) := by
    simpa [Item.encode, pad4] using hs
  have hin := lt_length_of_drop_eq_cons hs
  have hname' := drop_add_of_drop_eq hs
  rw [length_u32be] at hname'
  have hscan : scanName it.dt.structureBlock (it.currentOffset + 4) =
      it.currentOffset + 4 + name.length := by
    rw [scanName_eq, hname', cstrLen_append_nul hname]
  have hin4 : it.currentOffset + 4 ≤ it.dt.structureBlock.length := by
    have := length_le_of_drop_eq hs
    rw [length_u32be] at this
    omega
  have hslice : (slice it.dt.structureBlock (it.currentOffset + 4)
      (it.currentOffset + 4 + name.length) : Except (Fault Empty) _) = .ok name :=
    slice_of_drop_eq hin4 hname'
  have hpad : padEnd4b (it.currentOffset + 4 + name.length + 1) =
      it.currentOffset + (Item.beginNode name).encode.length := by
    simp only [Item.encode, List.length_append, length_u32be, length_pad4, List.length_cons,
      List.length_nil, padEnd4b]
    split <;> omega
  rw [next, dif_pos hin.le, hs, readAt_u32be hread (by decide), Fault.ok_bind,
    show TokenType.ofU32 0x01 = .beginNode from rfl]
  dsimp only
  rw [hscan, hslice, Fault.ok_bind, hpad]
  rfl

theorem next_prop {p : Property} (hp : (Item.prop p).WellFormed it.dt.strings)
    (hs : it.dt.structureBlock.drop it.currentOffset = (Item.prop p).encode ++ rest)
    (ho : it.currentOffset % 4 = 0) :
    next readU32 it = .ok (some p.token,
      { it with currentOffset := it.currentOffset + (Item.prop p).encode.length }) := by
  obtain ⟨hname, ⟨restS, hrestS⟩, hlen, hoff⟩ := hp
  have hs : it.dt.structureBlock.drop it.currentOffset = u32be 0x03 ++ (u32be p.data.length ++
      (u32be p.nameoff ++ (p.data ++ (List.replicate ((4 - p.data.length % 4) % 4) 0 ++ rest)))) := by
    simpa [Item.encode, pad4] using hs
  have hin := lt_length_of_drop_eq_cons hs
  have hin12 : it.currentOffset + 4 + 4 + 4 + p.data.length ≤ it.dt.structureBlock.length := by
    have := congrArg List.length hs
    simp only [List.length_drop, List.length_append, length_u32be] at this
    omega
  have h4 := drop_add_of_drop_eq hs
  have h8 := drop_add_of_drop_eq h4
  have h12 := drop_add_of_drop_eq h8
  simp only [length_u32be] at h4 h8 h12
  have hdata : (slice it.dt.structureBlock (it.currentOffset + 4 + 4 + 4)
      (it.currentOffset + 4 + 4 + 4 + p.data.length) : Except (Fault Empty) _) = .ok p.data :=
    slice_of_drop_eq (by omega) h12
  have hstrings : it.dt.strings.drop p.nameoff = p.name ++ (0 :: restS) := by
    simp [← hrestS]
  have hscan : scanName it.dt.strings p.nameoff = p.nameoff + p.name.length := by
    rw [scanName_eq, hstrings, cstrLen_append_nul hname]
  have hnameoff : p.nameoff ≤ it.dt.strings.length := by
    have := congrArg List.length hstrings
    simp only [List.length_drop, List.length_append, List.length_cons] at this
    omega
  have hslice : (slice it.dt.strings p.nameoff (p.nameoff + p.name.length) :
      Except (Fault Empty) _) = .ok p.name :=
    slice_of_drop_eq hnameoff hstrings
  have hpad : it.currentOffset + 4 + 4 + 4 + padEnd4b p.data.length =
      it.currentOffset + (Item.prop p).encode.length := by
    simp only [Item.encode, List.length_append, length_u32be, length_pad4, padEnd4b]
    split <;> omega
  rw [next, dif_pos hin.le, hs, readAt_u32be hread (by decide), Fault.ok_bind,
    show TokenType.ofU32 0x03 = .prop from rfl]
  dsimp only
  rw [sliceFrom_of_le (by omega), h4, Fault.ok_bind, readAt_u32be hread hlen, Fault.ok_bind,
    sliceFrom_of_le (by omega), h8, Fault.ok_bind, readAt_u32be hread hoff, Fault.ok_bind,
    hscan, hslice, Fault.ok_bind, hdata, Fault.ok_bind, hpad]
  rfl

theorem next_item {item : Item} (hwf : item.WellFormed it.dt.strings)
    (hs : it.dt.structureBlock.drop it.currentOffset = item.encode ++ rest)
    (ho : it.currentOffset % 4 = 0) :
    next readU32 it =
      .ok (item.token, { it with currentOffset := it.currentOffset + item.encode.length }) := by
  cases item with
  | beginNode name => exact next_beginNode hread hwf hs ho
  | endNode => exact next_endNode hread hs
  | prop p => exact next_prop hread hwf hs ho
  | «end» => exact next_end hread hs

theorem next_block {b : Block} (hwf : b.item.WellFormed it.dt.strings)
    (hs : it.dt.structureBlock.drop it.currentOffset = b.encode ++ rest)
    (ho : it.currentOffset % 4 = 0) :
    next readU32 it =
      .ok (b.item.token, { it with currentOffset := it.currentOffset + b.encode.length }) := by
  obtain ⟨nops, item⟩ := b
  induction nops generalizing it with
  | zero => simpa [Block.encode] using next_item hread hwf (by simpa [Block.encode] using hs) ho
  | succ k ih =>
    have hs' : it.dt.structureBlock.drop it.currentOffset =
        u32be 0x04 ++ (Block.encode ⟨k, item⟩ ++ rest) := by
      simpa [Block.encode, List.replicate_succ] using hs
    have hnext := @ih ⟨it.dt, it.currentOffset + 4⟩ (by dsimp only; omega) hwf
      (by simpa using drop_add_of_drop_eq hs')
    have hlen : it.currentOffset + 4 + (Block.encode ⟨k, item⟩).length =
        it.currentOffset + (Block.encode ⟨k + 1, item⟩).length := by
      rw [length_block_encode, length_block_encode]
      dsimp only
      omega
    rw [next_nop hread hs', hnext]
    dsimp only
    rw [hlen]

/-- The run lemma: over blocks of well-formed items with a token each (no `FDT_END`), the
iterator yields their tokens and stops right after them. -/
theorem yields_encodeBlocks {bs : List Block} {ts : List Token}
    (hwf : ∀ b ∈ bs, b.item.WellFormed it.dt.strings)
    (hts : bs.map (fun b => b.item.token) = ts.map some)
    (hs : it.dt.structureBlock.drop it.currentOffset = encodeBlocks bs ++ rest)
    (ho : it.currentOffset % 4 = 0) :
    Yields readU32 it ts
      { it with currentOffset := it.currentOffset + (encodeBlocks bs).length } := by
  induction bs generalizing it ts with
  | nil =>
    obtain rfl : ts = [] := List.map_eq_nil_iff.1 hts.symm
    simp [Yields]
  | cons b bs ih =>
    obtain ⟨t, ts, rfl⟩ : ∃ t ts', ts = t :: ts' := List.exists_cons_of_ne_nil (by
      rintro rfl
      cases hts)
    simp only [List.map_cons, List.cons.injEq] at hts
    have hs' : it.dt.structureBlock.drop it.currentOffset = b.encode ++ (encodeBlocks bs ++ rest) := by
      simpa using hs
    have hb := next_block hread (hwf b List.mem_cons_self) hs' ho
    rw [hts.1] at hb
    refine ⟨_, hb, ?_⟩
    have hrun := @ih ⟨it.dt, it.currentOffset + b.encode.length⟩ ts
      (fun b' hb' => hwf b' (List.mem_cons_of_mem b hb')) hts.2
      (by simpa using drop_add_of_drop_eq hs')
      (by have := length_block_encode_mod b; dsimp only; omega)
    simpa [Nat.add_assoc] using hrun

end Steps

/-! ## The tokens of a tree -/

/-- Where the iterator has just yielded the `StartNode` of a node inside a run, `skip_node`
takes it to right after that node's `EndNode`. -/
theorem skipNode_of_yields {it₀ it₁ itE : FlattenedTreeIter} {pre post : List Token} {n : Node}
    (hrun : Yields readU32 it₀ (pre ++ n.tokens ++ post) itE)
    (hstart : Yields readU32 it₀ (pre ++ [.startNode n.name]) it₁) :
    ∃ it₂, skipNode readU32 it₁ = .ok it₂ ∧ Yields readU32 it₀ (pre ++ n.tokens) it₂ := by
  obtain ⟨body, hbody, hclose⟩ := n.closes_tokens
  obtain ⟨it₂, hnode, -⟩ := yields_append.1 hrun
  refine ⟨it₂, ?_, hnode⟩
  obtain ⟨itA, hpre, hn⟩ := yields_append.1 hnode
  obtain ⟨itA', hpre', itS, hnextS, hS⟩ := yields_append.1 hstart
  obtain rfl := hpre.deterministic hpre'
  rw [hbody] at hn
  obtain ⟨itS', hnextS', hbodyY⟩ := hn
  -- the `StartNode` was yielded once, so the two runs are at the same place after it
  have hSS : itS' = it₁ := by
    rw [hnextS] at hnextS'
    cases hnextS'
    exact hS.symm
  rw [hSS] at hbodyY
  exact skipNodeLoop_of_yields hbodyY hclose

/-- The iterator of `dt` parses the tree `T`: from `iter_structure` it yields the tokens of `T`
and then `None`, at the end of the structure block; and wherever it has just yielded the
`StartNode` of a node `n` of `T`, `skip_node` takes it to right after the `EndNode` of `n`. -/
def ParsesTree (readU32 : List UInt8 → Option Nat) (dt : DeviceTree) (T : Node) : Prop :=
  ∃ it, Yields readU32 dt.iterStructure T.tokens it ∧
    next readU32 it = .ok (none, ⟨dt, dt.structureBlock.length⟩) ∧
    ∀ pre (n : Node) post it₁, T.tokens = pre ++ n.tokens ++ post →
      Yields readU32 dt.iterStructure (pre ++ [.startNode n.name]) it₁ →
      ∃ it₂, skipNode readU32 it₁ = .ok it₂ ∧ Yields readU32 dt.iterStructure (pre ++ n.tokens) it₂

section Tree

variable (hread : ReadsU32BE readU32) {dt : DeviceTree} {T : Node} {bs : List Block}
include hread

/-- On the encoding of a well-formed tree, the iterator yields the tree's tokens, then `None`
at the end of the structure block. -/
theorem yields_tree_tokens (hT : T.WellFormed dt.strings)
    (hbs : bs.map Block.item = T.items ++ [.end]) (hdt : dt.structureBlock = encodeBlocks bs) :
    ∃ it, Yields readU32 dt.iterStructure T.tokens it ∧
      next readU32 it = .ok (none, ⟨dt, dt.structureBlock.length⟩) := by
  obtain ⟨bs₁, bsE, rfl, h₁, hE⟩ := List.map_eq_append_iff.1 hbs
  obtain ⟨bEnd, rfl, hbEnd⟩ := List.map_eq_singleton_iff.1 hE
  have hwf : ∀ b ∈ bs₁, b.item.WellFormed dt.strings := fun b hb =>
    hT _ (h₁ ▸ List.mem_map_of_mem hb)
  have hts : bs₁.map (fun b => b.item.token) = T.tokens.map some := by
    rw [← T.map_token_items, ← h₁, List.map_map]
    rfl
  have hs : dt.iterStructure.dt.structureBlock.drop dt.iterStructure.currentOffset =
      encodeBlocks bs₁ ++ bEnd.encode := by
    simp [DeviceTree.iterStructure, hdt, encodeBlocks_append]
  refine ⟨_, yields_encodeBlocks hread hwf hts hs rfl, ?_⟩
  have hsE : dt.structureBlock.drop (encodeBlocks bs₁).length = bEnd.encode ++ [] := by
    simp [hdt, encodeBlocks_append]
  have hend : next readU32 ⟨dt, (encodeBlocks bs₁).length⟩ =
      .ok (bEnd.item.token, ⟨dt, (encodeBlocks bs₁).length + bEnd.encode.length⟩) :=
    next_block hread (by rw [hbEnd]; trivial) hsE (length_encodeBlocks_mod bs₁)
  rw [hbEnd] at hend
  simpa [DeviceTree.iterStructure, hdt, encodeBlocks_append, Item.token] using hend

theorem iter_structure_parses_tree (hT : T.WellFormed dt.strings)
    (hbs : bs.map Block.item = T.items ++ [.end]) (hdt : dt.structureBlock = encodeBlocks bs) :
    ParsesTree readU32 dt T := by
  obtain ⟨it, hrun, hend⟩ := yields_tree_tokens hread hT hbs hdt
  refine ⟨it, hrun, hend, ?_⟩
  intro pre n post it₁ htokens hstart
  rw [htokens] at hrun
  exact skipNode_of_yields hrun hstart

end Tree

/-- A root with a property, and a child with a property of no value, with `FDT_NOP`s in three
places. -/
def sampleTree : Node :=
  .mk [] [⟨[0x61], 0, [1, 2, 3]⟩] [.mk [0x63] [⟨[0x62], 2, []⟩] []]

def sampleBlocks : List Block :=
  [⟨1, .beginNode []⟩, ⟨0, .prop ⟨[0x61], 0, [1, 2, 3]⟩⟩, ⟨2, .beginNode [0x63]⟩,
    ⟨0, .prop ⟨[0x62], 2, []⟩⟩, ⟨0, .endNode⟩, ⟨1, .endNode⟩, ⟨0, .end⟩]

/-- A device tree holding `sampleTree`, with the property names `a` and `b`. -/
def sampleTreeBlob : DeviceTree := ⟨encodeBlocks sampleBlocks, [0x61, 0, 0x62, 0]⟩

theorem iter_structure_parses_sample :
    ReadsU32BE readU32BE ∧ sampleTree.WellFormed sampleTreeBlob.strings ∧
      sampleBlocks.map Block.item = sampleTree.items ++ [.end] ∧
      sampleTreeBlob.structureBlock = encodeBlocks sampleBlocks ∧
      ParsesTree readU32BE sampleTreeBlob sampleTree :=
  ⟨readsU32BE_readU32BE, by decide, by decide, rfl,
    iter_structure_parses_tree readsU32BE_readU32BE (by decide) (by decide) rfl⟩

end FlattenedTreeIter

end EndlessHole.Platform
