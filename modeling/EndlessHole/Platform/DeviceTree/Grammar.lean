import EndlessHole.Platform.DeviceTree.Iter

/-!
# The structure-block grammar

How the devicetree specification lays out a tree in the structure block (section 5.4): a node is
`FDT_BEGIN_NODE`, its name and a NUL padded to four bytes, its properties, its children and
`FDT_END_NODE`; a property is `FDT_PROP`, the length of its value, the offset of its name in the
strings block, and the value padded to four bytes; any number of `FDT_NOP` may stand before a
token; `FDT_END` ends the block. All tokens and lengths are big-endian 32-bit words.

* `Node` is a tree and `Node.tokens` the tokens of it in pre-order, what the iterator is meant to
  yield;
* `Node.items` is the same walk as the encoder writes it, with the name offsets of properties;
  a `Block` is one item after some `FDT_NOP`s, and `encodeBlocks` writes a list of them;
* `Node.WellFormed` is what the encoding needs of a tree: names without NUL, property names found
  NUL-terminated at their offsets in the strings block, lengths and offsets of 32 bits;
* `Closes d ts` counts depth over `ts` as `skip_node` does, from `d`, and says that the count
  first comes back to zero at the last token. `Node.closes_tokens` says that after the
  `StartNode` of a node it does so at the node's `EndNode`.
-/

namespace EndlessHole.Platform.Fdt

open Bytes

/-- A property: its name, the offset of the name in the strings block, and its value. -/
structure Property where
  name : List UInt8
  nameoff : Nat
  data : List UInt8
  deriving DecidableEq, Repr

def Property.token (p : Property) : Token := .property p.name p.data

/-- A node of a device tree: its name, its properties and its children. -/
inductive Node where
  | mk (name : List UInt8) (props : List Property) (children : List Node)
  deriving Repr

def Node.name : Node → List UInt8
  | .mk name _ _ => name

mutual

/-- The tokens of a node in pre-order: `StartNode`, the properties, the children, `EndNode`. -/
def Node.tokens : Node → List Token
  | .mk name props children =>
    .startNode name :: (props.map Property.token ++ Node.tokensList children ++ [.endNode])

def Node.tokensList : List Node → List Token
  | [] => []
  | n :: ns => n.tokens ++ Node.tokensList ns

end

/-! ## Items and their bytes -/

/-- A token as the encoding writes it, `FDT_NOP` apart. -/
inductive Item where
  | beginNode (name : List UInt8)
  | endNode
  | prop (p : Property)
  | «end»
  deriving DecidableEq, Repr

/-- What `next` is meant to yield at an item: its token, `none` at `FDT_END`. -/
def Item.token : Item → Option Token
  | .beginNode name => some (.startNode name)
  | .endNode => some .endNode
  | .prop p => some p.token
  | .end => none

def Item.encode : Item → List UInt8
  | .beginNode name => u32be 0x01 ++ pad4 (name ++ [0])
  | .endNode => u32be 0x02
  | .prop p => u32be 0x03 ++ u32be p.data.length ++ u32be p.nameoff ++ pad4 p.data
  | .end => u32be 0x09

/-- An item after `nops` tokens `FDT_NOP`. -/
structure Block where
  nops : Nat
  item : Item
  deriving DecidableEq, Repr

def Block.encode (b : Block) : List UInt8 :=
  (List.replicate b.nops (u32be 0x04)).flatten ++ b.item.encode

def encodeBlocks (bs : List Block) : List UInt8 := bs.flatMap Block.encode

@[simp] theorem encodeBlocks_nil : encodeBlocks [] = [] := rfl

@[simp] theorem encodeBlocks_cons (b : Block) (bs : List Block) :
    encodeBlocks (b :: bs) = b.encode ++ encodeBlocks bs := rfl

theorem encodeBlocks_append (bs bs' : List Block) :
    encodeBlocks (bs ++ bs') = encodeBlocks bs ++ encodeBlocks bs' := by
  simp [encodeBlocks]

theorem length_item_encode_mod (it : Item) : it.encode.length % 4 = 0 := by
  cases it <;> simp [Item.encode, length_pad4] <;> omega

theorem length_block_encode (b : Block) : b.encode.length = 4 * b.nops + b.item.encode.length := by
  simp [Block.encode, List.length_flatten, Nat.mul_comm]

theorem length_block_encode_mod (b : Block) : b.encode.length % 4 = 0 := by
  have hitem := length_item_encode_mod b.item
  rw [length_block_encode]
  omega

theorem length_encodeBlocks_mod (bs : List Block) : (encodeBlocks bs).length % 4 = 0 := by
  induction bs with
  | nil => rfl
  | cons b bs ih =>
    have hb := length_block_encode_mod b
    rw [encodeBlocks_cons, List.length_append]
    omega

mutual

/-- The items of a node in pre-order, as the encoding writes them. -/
def Node.items : Node → List Item
  | .mk name props children =>
    .beginNode name :: (props.map Item.prop ++ Node.itemsList children ++ [.endNode])

def Node.itemsList : List Node → List Item
  | [] => []
  | n :: ns => n.items ++ Node.itemsList ns

end

mutual

theorem Node.map_token_items : (n : Node) → n.items.map Item.token = n.tokens.map some
  | .mk name props children => by
    simp [Node.items, Node.tokens, Node.map_token_itemsList children, Item.token,
      Function.comp_def]

theorem Node.map_token_itemsList :
    (ns : List Node) → (Node.itemsList ns).map Item.token = (Node.tokensList ns).map some
  | [] => rfl
  | n :: ns => by
    simp [Node.itemsList, Node.tokensList, Node.map_token_items n, Node.map_token_itemsList ns]

end

/-! ## Well-formed trees -/

/-- What the encoding needs of an item: a node name without NUL; a property name without NUL,
found NUL-terminated at its offset in `strings`, and a length and an offset of 32 bits. -/
def Item.WellFormed (strings : List UInt8) : Item → Prop
  | .beginNode name => 0 ∉ name
  | .prop p => 0 ∉ p.name ∧ p.name ++ [0] <+: strings.drop p.nameoff ∧
      p.data.length < 2 ^ 32 ∧ p.nameoff < 2 ^ 32
  | .endNode => True
  | .end => True

instance (strings : List UInt8) (it : Item) : Decidable (it.WellFormed strings) :=
  match it with
  | .beginNode name => inferInstanceAs (Decidable (0 ∉ name))
  | .prop p => inferInstanceAs (Decidable (0 ∉ p.name ∧ p.name ++ [0] <+: strings.drop p.nameoff ∧
      p.data.length < 2 ^ 32 ∧ p.nameoff < 2 ^ 32))
  | .endNode => inferInstanceAs (Decidable True)
  | .end => inferInstanceAs (Decidable True)

/-- A tree the structure block can hold: each of its items is well formed. -/
def Node.WellFormed (strings : List UInt8) (n : Node) : Prop :=
  ∀ it ∈ n.items, it.WellFormed strings

instance (strings : List UInt8) (n : Node) : Decidable (n.WellFormed strings) :=
  inferInstanceAs (Decidable (∀ it ∈ n.items, it.WellFormed strings))

/-! ## Depth, as `skip_node` counts it -/

/-- Counting depth over `ts` from `depth` as `skip_node` does, the count first comes back to zero
at the last token of `ts`. -/
def Closes : Nat → List Token → Prop
  | _, [] => False
  | depth, .startNode _ :: ts => Closes (depth + 1) ts
  | depth, .endNode :: ts => if depth - 1 = 0 then ts = [] else Closes (depth - 1) ts
  | depth, .property _ _ :: ts => Closes depth ts

theorem closes_append_props {depth : Nat} {ts : List Token} (props : List Property)
    (h : Closes depth ts) : Closes depth (props.map Property.token ++ ts) := by
  induction props with
  | nil => exact h
  | cons p props ih => exact ih

mutual

theorem Node.closes_append_tokens {depth : Nat} {ts : List Token} (hdepth : 0 < depth)
    (h : Closes depth ts) : (n : Node) → Closes depth (n.tokens ++ ts)
  | .mk name props children => by
    have hend : Closes (depth + 1) (Token.endNode :: ts) := by
      rw [Closes, if_neg (by omega)]
      exact h
    have hchildren := Node.closes_append_tokensList (Nat.succ_pos depth) hend children
    rw [Node.tokens, List.cons_append, Closes.eq_2]
    simp only [List.append_assoc, List.singleton_append]
    exact closes_append_props props hchildren

theorem Node.closes_append_tokensList {depth : Nat} {ts : List Token} (hdepth : 0 < depth)
    (h : Closes depth ts) : (ns : List Node) → Closes depth (Node.tokensList ns ++ ts)
  | [] => h
  | n :: ns => by
    rw [Node.tokensList, List.append_assoc]
    exact Node.closes_append_tokens hdepth (Node.closes_append_tokensList hdepth h ns) n

end

/-- After the `StartNode` of a node, `skip_node`'s count comes back to zero at the node's
`EndNode`. -/
theorem Node.closes_tokens (n : Node) : ∃ body, n.tokens = .startNode n.name :: body ∧ Closes 1 body := by
  obtain ⟨name, props, children⟩ := n
  have hend : Closes 1 [Token.endNode] := by
    rw [Closes, if_pos rfl]
  refine ⟨props.map Property.token ++ Node.tokensList children ++ [.endNode], rfl, ?_⟩
  rw [List.append_assoc]
  exact closes_append_props props (Node.closes_append_tokensList Nat.one_pos hend children)

end EndlessHole.Platform.Fdt
