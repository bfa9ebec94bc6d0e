import EndlessHole.Platform.DeviceTree.Values

/-!
# Looking nodes and properties up by path

`iter_node_properties`, `iter_nodes_named` and `find_property` of
`kernel_core/src/platform/device_tree/mod.rs`, with the iterators `NodePropertyIter` and
`NodesNamedIter` of `iter.rs` they return.

A path is split at `/` into segments. Both lookups walk the tokens once: a node whose name is the
segment looked for is entered and the next segment looked for; any other node is skipped with
`skip_node`; an `EndNode` means the path left the nodes it was in, and ends the search. On the
way, `#address-cells` and `#size-cells` of the nodes entered are remembered for the node found,
with the defaults `2` and `1` of section 2.3.5 of the specification. The two lookups share this
loop, `findNode`.

Every loop here calls `FlattenedTreeIter.next` once per turn and goes on from where it left the
iterator, so each terminates by `FlattenedTreeIter.Advances`. So do the `for` loops over the two
iterators (`forLoop`), which `Iterator.IsForLoop` turns into folds over what the iterators
yield.
-/

namespace EndlessHole.Platform

open Bytes Fdt

/-- `NodePropertyIter`: the properties of the node the iterator is in, at depth `depth` below
it. -/
structure NodePropertyIter where
  cur : FlattenedTreeIter
  depth : Nat
  parentAddressCells : Nat
  parentSizeCells : Nat

namespace FlattenedTreeIter

variable (readU32 : List UInt8 → Option Nat)

theorem measure_lt_of_next {it it' : FlattenedTreeIter} {t : Option Token}
    (h : next readU32 it = .ok (t, it')) :
    it'.dt.structureBlock.length + 5 - it'.currentOffset <
      it.dt.structureBlock.length + 5 - it.currentOffset := by
  obtain ⟨hdt, hlt, hle⟩ := next_progress readU32 h
  rw [hdt]
  omega

theorem measure_lt_of_skipNode {it it' : FlattenedTreeIter}
    (h : skipNode readU32 it = .ok it') :
    it'.dt.structureBlock.length + 5 - it'.currentOffset <
      it.dt.structureBlock.length + 5 - it.currentOffset := by
  obtain ⟨hdt, hlt, hle⟩ := skipNodeLoop_progress readU32 h
  rw [hdt]
  omega

end FlattenedTreeIter

open FlattenedTreeIter

namespace NodePropertyIter

variable (readU32 : List UInt8 → Option Nat)

/-- The `for item in self.cur.by_ref()` loop of `NodePropertyIter::next`. -/
def nextLoop (it : NodePropertyIter) :
    Except (Fault Empty) (Option (List UInt8 × Value) × NodePropertyIter) :=
  match h : it.cur.next readU32 with
  | .ok (some (.startNode _), cur') => nextLoop { it with cur := cur', depth := it.depth + 1 }
  | .ok (some .endNode, cur') =>
    let it' := { it with cur := cur', depth := it.depth - 1 }
    if it'.depth = 0 then pure (none, it') else nextLoop it'
  | .ok (some (.property name data), cur') =>
    if it.depth = 1 then do
      let v ← Value.parse readU32 name data it.parentAddressCells it.parentSizeCells
      pure (some (name, v), { it with cur := cur' })
    else nextLoop { it with cur := cur' }
  | .ok (none, cur') => pure (none, { it with cur := cur' })
  | .error e => .error e
termination_by it.cur.dt.structureBlock.length + 5 - it.cur.currentOffset
decreasing_by all_goals exact measure_lt_of_next readU32 h

/-- `NodePropertyIter::next`: the next property of the node, with its value. -/
def next (it : NodePropertyIter) :
    Except (Fault Empty) (Option (List UInt8 × Value) × NodePropertyIter) :=
  if it.depth = 0 then pure (none, it) else nextLoop readU32 it

theorem nextLoop_progress {it it' : NodePropertyIter} {r : Option (List UInt8 × Value)}
    (h : nextLoop readU32 it = .ok (r, it')) : Advances it.cur it'.cur := by
  induction hm : it.cur.dt.structureBlock.length + 5 - it.cur.currentOffset
    using Nat.strong_induction_on generalizing it with
  | _ m ih =>
  rw [nextLoop] at h
  split at h
  case h_5 => cases h
  all_goals
    rename_i cur' hnext
    have hadv := next_progress readU32 hnext
    have hlt := measure_lt_of_next readU32 hnext
  case h_1 => exact hadv.trans (ih _ (by dsimp only; omega) h rfl)
  case h_2 =>
    dsimp only at h
    split at h
    · cases h
      exact hadv
    · exact hadv.trans (ih _ (by dsimp only; omega) h rfl)
  case h_3 =>
    split at h
    · obtain ⟨_, -, h⟩ := Fault.bind_eq_ok.1 h
      cases h
      exact hadv
    · exact hadv.trans (ih _ (by dsimp only; omega) h rfl)
  case h_4 =>
    cases h
    exact hadv

theorem next_progress_of_some {it it' : NodePropertyIter} {x : List UInt8 × Value}
    (h : next readU32 it = .ok (some x, it')) : Advances it.cur it'.cur := by
  unfold next at h
  split at h
  · cases h
  · exact nextLoop_progress readU32 h

/-- `Iterator::find` on the properties: the first one named `propertyName`. -/
def find (it : NodePropertyIter) (propertyName : List UInt8) :
    Except (Fault Empty) (Option (List UInt8 × Value)) :=
  match _h : next readU32 it with
  | .ok (some (name, v), it') =>
    if name = propertyName then pure (some (name, v)) else find it' propertyName
  | .ok (none, _) => pure none
  | .error e => .error e
termination_by it.cur.dt.structureBlock.length + 5 - it.cur.currentOffset
decreasing_by
  obtain ⟨hdt, hlt, hle⟩ := next_progress_of_some readU32 _h
  rw [hdt]
  omega

/-- A `for` loop over the properties, with body `f` on an accumulator; a panic of the iterator
ends it. -/
def forLoop {ε β : Type} (f : β → List UInt8 × Value → Except (Fault ε) β) (it : NodePropertyIter)
    (b : β) : Except (Fault ε) β :=
  match _h : next readU32 it with
  | .ok (some property, it') => do
    let b ← f b property
    forLoop f it' b
  | .ok (none, _) => .ok b
  | .error e => .error e.widen
termination_by it.cur.dt.structureBlock.length + 5 - it.cur.currentOffset
decreasing_by
  obtain ⟨hdt, hlt, hle⟩ := next_progress_of_some readU32 _h
  rw [hdt]
  omega

theorem forLoop_isForLoop {ε β : Type} (f : β → List UInt8 × Value → Except (Fault ε) β) :
    Iterator.IsForLoop (next readU32) Fault.widen f (forLoop readU32 f) := by
  intro it b
  rw [forLoop]
  split <;> rename_i hnext <;> rw [hnext]

end NodePropertyIter

/-! ## Finding the node at a path -/

variable (readU32 : List UInt8 → Option Nat)

/-- The loop of `iter_node_properties` and `iter_nodes_named`: `lookingFor` is the segment looked
for at this depth and `segments` the ones after it. Returns the iterator right after the
`StartNode` of the node found, with the cells last set on the way. -/
def findNode (segments : List (List UInt8)) (lookingFor : List UInt8) (tokens : FlattenedTreeIter)
    (addressCells sizeCells : Option Nat) :
    Except (Fault Empty) (Option (FlattenedTreeIter × Option Nat × Option Nat)) :=
  match _h : tokens.next readU32 with
  | .ok (some (.startNode name), tokens') =>
    if name = lookingFor then
      match segments with
      | [] | [] :: _ => pure (some (tokens', addressCells, sizeCells))
      | next :: rest => findNode rest next tokens' addressCells sizeCells
    else
      match _h' : tokens'.skipNode readU32 with
      | .ok tokens'' => findNode segments lookingFor tokens'' addressCells sizeCells
      | .error e => .error e
  | .ok (some .endNode, _) => pure none
  | .ok (some (.property name data), tokens') =>
    if name = ascii "#address-cells" then do
      let v ← readAt readU32 data
      findNode segments lookingFor tokens' (some v) sizeCells
    else if name = ascii "#size-cells" then do
      let v ← readAt readU32 data
      findNode segments lookingFor tokens' addressCells (some v)
    else findNode segments lookingFor tokens' addressCells sizeCells
  | .ok (none, _) => pure none
  | .error e => .error e
termination_by tokens.dt.structureBlock.length + 5 - tokens.currentOffset
decreasing_by
  all_goals first
    | exact measure_lt_of_next readU32 _h
    | exact (measure_lt_of_skipNode readU32 _h').trans (measure_lt_of_next readU32 _h)

/-- `DeviceTree::iter_node_properties`. -/
def iterNodeProperties (dt : DeviceTree) (path : List UInt8) :
    Except (Fault Empty) (Option NodePropertyIter) :=
  match path.splitOn 0x2f with
  | [] => pure none
  | lookingFor :: segments => do
    let found ← findNode readU32 segments lookingFor dt.iterStructure none none
    pure (found.map fun (tokens, addressCells, sizeCells) =>
      ⟨tokens, 1, addressCells.getD 2, sizeCells.getD 1⟩)

/-- `DeviceTree::find_property`: the path up to its last `/` names the node, the rest the
property. -/
def findProperty (dt : DeviceTree) (path : List UInt8) : Except (Fault Empty) (Option Value) :=
  match path.reverse.findIdx? (· == 0x2f) with
  | none => pure none
  | some split => do
    let nodePath := path.take (path.length - split)
    let propertyName := path.drop (path.length - split)
    match ← iterNodeProperties readU32 dt nodePath with
    | none => pure none
    | some props => do
      let found ← props.find readU32 propertyName
      pure (found.map Prod.snd)

/-! ## Children by name -/

/-- `split_node_name`: a node name `name@unit-address` split at its first `@`. -/
def splitNodeName (fullName : List UInt8) : List UInt8 × Option (List UInt8) :=
  match fullName.findIdx? (· == 0x40) with
  | some pos => (fullName.take pos, some (fullName.drop (pos + 1)))
  | none => (fullName, none)

theorem findIdx?_beq_eq_none {l : List UInt8} {c : UInt8} (h : c ∉ l) :
    l.findIdx? (· == c) = none := by
  rw [List.findIdx?_eq_none_iff]
  intro x hx
  rw [beq_eq_false_iff_ne]
  rintro rfl
  exact h hx

theorem splitNodeName_append_at {name unitAddress : List UInt8} (h : (0x40 : UInt8) ∉ name) :
    splitNodeName (name ++ 0x40 :: unitAddress) = (name, some unitAddress) := by
  have hidx : (name ++ 0x40 :: unitAddress).findIdx? (· == 0x40) = some name.length := by
    rw [List.findIdx?_append, findIdx?_beq_eq_none h, List.findIdx?_cons]
    simp
  rw [splitNodeName, hidx]
  simp

theorem splitNodeName_of_not_mem {fullName : List UInt8} (h : (0x40 : UInt8) ∉ fullName) :
    splitNodeName fullName = (fullName, none) := by
  rw [splitNodeName, findIdx?_beq_eq_none h]

structure NodeItem where
  unitAddress : Option (List UInt8)
  properties : NodePropertyIter

/-- `NodesNamedIter`: the children named `nodeName` of the node the iterator is in. -/
structure NodesNamedIter where
  cur : FlattenedTreeIter
  depth : Nat
  nodeName : List UInt8
  parentAddressCells : Nat
  parentSizeCells : Nat

namespace NodesNamedIter

/-- `NodesNamedIter::next`. `self.depth -= 1` on a `usize` at zero overflows, which panics (in
the builds the tests run). -/
def next (it : NodesNamedIter) : Except (Fault Empty) (Option NodeItem × NodesNamedIter) :=
  match _h : it.cur.next readU32 with
  | .ok (some (.startNode fullName), cur') =>
    let depth := it.depth + 1
    let (name, unitAddress) := splitNodeName fullName
    if name = it.nodeName then do
      let propsCur := cur'
      let cur'' ← cur'.skipNode readU32
      pure (some ⟨unitAddress, ⟨propsCur, 1, it.parentAddressCells, it.parentSizeCells⟩⟩,
        { it with cur := cur'', depth := depth - 1 })
    else
      match _h' : cur'.skipNode readU32 with
      | .ok cur'' => next { it with cur := cur'', depth := depth - 1 }
      | .error e => .error e
  | .ok (some .endNode, cur') => do
    Fault.assert (it.depth != 0)
    let it' := { it with cur := cur', depth := it.depth - 1 }
    if it'.depth = 0 then pure (none, it') else next it'
  | .ok (some (.property name data), cur') =>
    if name = ascii "#address-cells" then do
      let v ← readAt readU32 data
      next { it with cur := cur', parentAddressCells := v }
    else if name = ascii "#size-cells" then do
      let v ← readAt readU32 data
      next { it with cur := cur', parentSizeCells := v }
    else next { it with cur := cur' }
  | .ok (none, cur') => pure (none, { it with cur := cur' })
  | .error e => .error e
termination_by it.cur.dt.structureBlock.length + 5 - it.cur.currentOffset
decreasing_by
  all_goals first
    | exact measure_lt_of_next readU32 _h
    | exact (measure_lt_of_skipNode readU32 _h').trans (measure_lt_of_next readU32 _h)

theorem next_progress_of_some {it it' : NodesNamedIter} {x : NodeItem}
    (h : next readU32 it = .ok (some x, it')) : Advances it.cur it'.cur := by
  fun_induction next readU32 it with
  | case1 it fullName cur' hnext depth unitAddress propsCur hsplit =>
    obtain ⟨cur'', hskip, h⟩ := Fault.bind_eq_ok.1 h
    cases h
    exact (next_progress readU32 hnext).trans (skipNodeLoop_progress readU32 hskip)
  | case2 it fullName cur' hnext depth name unitAddress hsplit hname cur'' hskip ih =>
    exact ((next_progress readU32 hnext).trans (skipNodeLoop_progress readU32 hskip)).trans (ih h)
  | case3 => cases h
  | case4 it cur' hnext ih =>
    obtain ⟨-, -, h⟩ := Fault.bind_eq_ok.1 h
    dsimp only at h
    split at h
    · cases h
    · exact (next_progress readU32 hnext).trans (ih h)
  | case5 it data cur' hnext ih | case6 it data cur' hnext _ ih =>
    obtain ⟨v, -, h⟩ := Fault.bind_eq_ok.1 h
    exact (next_progress readU32 hnext).trans (ih v h)
  | case7 it name data cur' hnext _ _ ih => exact (next_progress readU32 hnext).trans (ih h)
  | case8 => cases h
  | case9 => cases h

/-- A `for` loop over the nodes, with body `f` on an accumulator; a panic of the iterator ends
it. -/
def forLoop {ε β : Type} (f : β → NodeItem → Except (Fault ε) β) (it : NodesNamedIter) (b : β) :
    Except (Fault ε) β :=
  match _h : next readU32 it with
  | .ok (some node, it') => do
    let b ← f b node
    forLoop f it' b
  | .ok (none, _) => .ok b
  | .error e => .error e.widen
termination_by it.cur.dt.structureBlock.length + 5 - it.cur.currentOffset
decreasing_by
  obtain ⟨hdt, hlt, hle⟩ := next_progress_of_some readU32 _h
  rw [hdt]
  omega

theorem forLoop_isForLoop {ε β : Type} (f : β → NodeItem → Except (Fault ε) β) :
    Iterator.IsForLoop (next readU32) Fault.widen f (forLoop readU32 f) := by
  intro it b
  rw [forLoop]
  split <;> rename_i hnext <;> rw [hnext]

end NodesNamedIter

/-- `DeviceTree::iter_nodes_named`. -/
def iterNodesNamed (dt : DeviceTree) (path nodeName : List UInt8) :
    Except (Fault Empty) (Option NodesNamedIter) :=
  match path.splitOn 0x2f with
  | [] => pure none
  | lookingFor :: segments => do
    let found ← findNode readU32 segments lookingFor dt.iterStructure none none
    pure (found.map fun (tokens, addressCells, sizeCells) =>
      ⟨tokens, 1, nodeName, addressCells.getD 2, sizeCells.getD 1⟩)

end EndlessHole.Platform
