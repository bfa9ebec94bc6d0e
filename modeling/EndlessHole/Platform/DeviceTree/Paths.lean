import EndlessHole.Platform.DeviceTree.Lookup
import EndlessHole.Platform.DeviceTree.Parse

/-!
# Lookups on a parsed tree

`iter_node_properties` and `iter_nodes_named` on the encoding of a tree of the structure-block
grammar. The code comments cite section 2.3.5 of the devicetree specification for the defaults
`2` and `1`: there `#address-cells` and `#size-cells` describe the children of the node that has
them and are not inherited, so a node's `reg` is read with the cells of its parent, or the
defaults when the parent has none. `findNode` instead keeps the last values it read on the way
down, from any ancestor.

* `cellsTree`: a root with `#address-cells = <1>`, a child `a` with no cells, and under it `b`
  with a `reg` of three cells, encoded in `cellsTreeBlob`;
* `iter_node_properties_inherits_cells` and `iter_nodes_named_inherits_cells`: both lookups parse
  the `reg` of `b` with the one address cell of the root instead of the two of the default.
-/

namespace EndlessHole.Platform

open Bytes Fdt

/-- `/ { #address-cells = <1>; a { b { reg = <5 6 7>; }; }; }`. -/
def cellsTree : Node :=
  .mk [] [⟨ascii "#address-cells", 0, u32be 1⟩]
    [.mk (ascii "a") [] [.mk (ascii "b") [⟨ascii "reg", 15, u32be 5 ++ u32be 6 ++ u32be 7⟩] []]]

/-- The items of `cellsTree` and `FDT_END`, with no `FDT_NOP`. -/
def cellsTreeBlocks : List Block := (cellsTree.items ++ [Item.end]).map (⟨0, ·⟩)

/-- A device tree holding `cellsTree`, with the property names `#address-cells` and `reg`. -/
def cellsTreeBlob : DeviceTree :=
  ⟨encodeBlocks cellsTreeBlocks, ascii "#address-cells" ++ [0] ++ ascii "reg" ++ [0]⟩

/-- The properties of `/a/b` in `cellsTree`, a tree the blob encodes as the grammar lays it out:
its `reg` is parsed with one address cell, the `#address-cells` of the root, although its parent
`a` defines no cells and the default is two. -/
theorem iter_node_properties_inherits_cells :
    cellsTree.WellFormed cellsTreeBlob.strings ∧
      cellsTreeBlocks.map Block.item = cellsTree.items ++ [.end] ∧
      (do
        let some props ← iterNodeProperties readU32BE cellsTreeBlob (ascii "/a/b") | pure none
        let (property, _) ← props.next readU32BE
        pure property) =
        .ok (some (ascii "reg", .reg ⟨u32be 5 ++ u32be 6 ++ u32be 7, 1, 1⟩)) := by
  refine ⟨by decide, by decide, ?_⟩
  decide +kernel

/-- The children named `b` of `/a` in `cellsTree`: the one child's `reg` is parsed with the one
address cell of the root, although `a` defines no cells and the default is two. -/
theorem iter_nodes_named_inherits_cells :
    cellsTree.WellFormed cellsTreeBlob.strings ∧
      cellsTreeBlocks.map Block.item = cellsTree.items ++ [.end] ∧
      ((do
        let some nodes ← iterNodesNamed readU32BE cellsTreeBlob (ascii "/a") (ascii "b")
          | pure none
        let (some node, _) ← nodes.next readU32BE | pure none
        let (property, _) ← node.properties.next readU32BE
        pure (some (node.unitAddress, property))) :
          Except (Fault Empty) (Option (Option (List UInt8) × Option (List UInt8 × Value)))) =
        .ok (some (none, some (ascii "reg", .reg ⟨u32be 5 ++ u32be 6 ++ u32be 7, 1, 1⟩))) := by
  refine ⟨by decide, by decide, ?_⟩
  decide +kernel

end EndlessHole.Platform
