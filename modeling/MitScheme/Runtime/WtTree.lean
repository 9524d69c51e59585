import Mathlib.Data.Nat.Bitwise
import MitScheme.Lib.SortedMap

/-! # Weight-balanced trees

The functional trees of `wttree.scm`. A node stores its weight. The procedures that use
`t-join` are given it as an argument, so that a run can also be made with one that checks
what it returns. Weights are small enough to be exact integers. -/

namespace MitScheme.Runtime.WtTree
open Lib.SortedMap

inductive Tree (α β : Type)
  | empty
  | node (k : α) (v : β) (l r : Tree α β) (w : Nat)

inductive Fault
  /-- A selector is given `empty`. -/
  | wrongType
  /-- `error:empty`. -/
  | empty
  /-- A check on `t-join` fails. -/
  | unbalanced

variable {α β : Type}

namespace Tree

/-- `node/size`. -/
def size : Tree α β → Nat
  | empty => 0
  | node _ _ _ _ w => w

/-- `node/weight`. -/
def weight (node : Tree α β) : Nat := node.size

end Tree

open WtTree.Tree (empty node)

/-- `log2<`. -/
def log2Lt (a b : Nat) : Bool := decide (a < b) && decide ((a &&& b) <<< 1 < b)

/-- `overweight?`. -/
def overweight (a b : Nat) : Bool := log2Lt a (b >>> 1)

/-- `single?`. -/
def single (a b : Nat) : Bool := !log2Lt b a

def singleton (k : α) (v : β) : Tree α β := node k v empty empty 1

def nJoin (k : α) (v : β) (l r : Tree α β) : Tree α β := node k v l r (1 + l.size + r.size)

def singleL (ak : α) (av : β) (x : Tree α β) : Tree α β → Except Fault (Tree α β)
  | node bk bv y z _ => .ok (nJoin bk bv (nJoin ak av x y) z)
  | empty => .error .wrongType

def doubleL (ak : α) (av : β) (x : Tree α β) : Tree α β → Except Fault (Tree α β)
  | node ck cv (node bk bv y1 y2 _) z _ =>
    .ok (nJoin bk bv (nJoin ak av x y1) (nJoin ck cv y2 z))
  | _ => .error .wrongType

def singleR (bk : α) (bv : β) (l z : Tree α β) : Except Fault (Tree α β) :=
  match l with
  | node ak av x y _ => .ok (nJoin ak av x (nJoin bk bv y z))
  | empty => .error .wrongType

def doubleR (ck : α) (cv : β) (l z : Tree α β) : Except Fault (Tree α β) :=
  match l with
  | node ak av x (node bk bv y1 y2 _) _ =>
    .ok (nJoin bk bv (nJoin ak av x y1) (nJoin ck cv y2 z))
  | _ => .error .wrongType

def rotateL (k : α) (v : β) (l r : Tree α β) : Except Fault (Tree α β) :=
  match r with
  | empty => .error .wrongType
  | node _ _ rl rr _ =>
    if single rl.weight rr.weight then singleL k v l r else doubleL k v l r

def rotateR (k : α) (v : β) (l r : Tree α β) : Except Fault (Tree α β) :=
  match l with
  | empty => .error .wrongType
  | node _ _ ll lr _ =>
    if single lr.weight ll.weight then singleR k v l r else doubleR k v l r

def tJoin (k : α) (v : β) (l r : Tree α β) : Except Fault (Tree α β) :=
  if overweight l.weight r.weight then rotateL k v l r
  else if overweight r.weight l.weight then rotateR k v l r
  else .ok (nJoin k v l r)

/-- The types of `t-join`. -/
abbrev Join (α β : Type) := α → β → Tree α β → Tree α β → Except Fault (Tree α β)

/-- `node/min`, with the key and the datum of the node it returns. -/
def min : Tree α β → Except Fault (α × β)
  | empty => .error .empty
  | node k v empty _ _ => .ok (k, v)
  | node _ _ l _ _ => min l

/-- `node/delmin`. -/
def delmin (join : Join α β) : Tree α β → Except Fault (Tree α β)
  | empty => .error .empty
  | node _ _ empty r _ => .ok r
  | node k v l r _ => do
    let l ← delmin join l
    join k v l r

/-- `node/concat2`. -/
def concat2 (join : Join α β) (node1 node2 : Tree α β) : Except Fault (Tree α β) :=
  match node1, node2 with
  | empty, node2 => .ok node2
  | node1, empty => .ok node1
  | node1, node2 => do
    let (k, v) ← min node2
    let node2 ← delmin join node2
    join k v node1 node2

section
variable (O : KeyOrder α) (join : Join α β)

/-- The loop of `node/find`, with the key and the datum of the nodes it keeps. -/
def findLoop (k : α) : Tree α β → Option (α × β) → Option (α × β)
  | empty, best => best
  | node key v l r _, best =>
    if O.lt k key then findLoop k l best else findLoop k r (some (key, v))

/-- `node/find`. -/
def find (k : α) (node : Tree α β) : Option (α × β) :=
  match findLoop O k node none with
  | none => none
  | some best => if O.lt best.1 k then none else some best

/-- `node/add`. -/
def add (k : α) (v : β) : Tree α β → Except Fault (Tree α β)
  | empty => .ok (singleton k v)
  | node key val l r _ =>
    if O.lt k key then do
      let l ← add k v l
      join key val l r
    else if O.lt key k then do
      let r ← add k v r
      join key val l r
    else .ok (nJoin key v l r)

/-- `node/delete`. -/
def delete (x : α) : Tree α β → Except Fault (Tree α β)
  | empty => .ok empty
  | node key val l r _ =>
    if O.lt x key then do
      let l ← delete x l
      join key val l r
    else if O.lt key x then do
      let r ← delete x r
      join key val l r
    else concat2 join l r

/-- `node/concat3`. -/
def concat3 (k : α) (v : β) (l r : Tree α β) : Except Fault (Tree α β) :=
  match l, r with
  | empty, r => add O join k v r
  | l, empty => add O join k v l
  | node k1 v1 l1 r1 w1, node k2 v2 l2 r2 w2 =>
    if overweight w1 w2 then do
      let l2 ← concat3 k v (node k1 v1 l1 r1 w1) l2
      join k2 v2 l2 r2
    else if overweight w2 w1 then do
      let r1 ← concat3 k v r1 (node k2 v2 l2 r2 w2)
      join k1 v1 l1 r1
    else .ok (nJoin k v (node k1 v1 l1 r1 w1) (node k2 v2 l2 r2 w2))
termination_by (l, r)

/-- `node/concat`. -/
def concat (tree1 tree2 : Tree α β) : Except Fault (Tree α β) :=
  match tree1, tree2 with
  | empty, tree2 => .ok tree2
  | tree1, empty => .ok tree1
  | tree1, tree2 => do
    let (k, v) ← min tree2
    let tree2 ← delmin join tree2
    concat3 O join k v tree1 tree2

/-- `node/split-lt`. -/
def splitLt (x : α) : Tree α β → Except Fault (Tree α β)
  | empty => .ok empty
  | node key v l r _ =>
    if O.lt x key then splitLt x l
    else if O.lt key x then do
      let r ← splitLt x r
      concat3 O join key v l r
    else .ok l

/-- `node/split-gt`. -/
def splitGt (x : α) : Tree α β → Except Fault (Tree α β)
  | empty => .ok empty
  | node key v l r _ =>
    if O.lt key x then splitGt x r
    else if O.lt x key then do
      let l ← splitGt x l
      concat3 O join key v l r
    else .ok r

/-- `node/union`. -/
def union (tree1 : Tree α β) : Tree α β → Except Fault (Tree α β)
  | empty => .ok tree1
  | node ak av l r w =>
    match tree1 with
    | empty => .ok (node ak av l r w)
    | tree1 => do
      let l1 ← splitLt O join ak tree1
      let r1 ← splitGt O join ak tree1
      let l ← union l1 l
      let r ← union r1 r
      concat3 O join ak av l r

/-- `node/union-merge`. -/
def unionMerge (merge : α → β → β → β) (tree1 : Tree α β) : Tree α β → Except Fault (Tree α β)
  | empty => .ok tree1
  | node ak av l r w =>
    match tree1 with
    | empty => .ok (node ak av l r w)
    | tree1 => do
      let node1 := find O ak tree1
      let l1 ← splitLt O join ak tree1
      let r1 ← splitGt O join ak tree1
      let value :=
        match node1 with
        | some node1 => merge ak av node1.2
        | none => av
      let l ← unionMerge merge l1 l
      let r ← unionMerge merge r1 r
      concat3 O join ak value l r

/-- `node/difference`. -/
def difference (tree1 : Tree α β) : Tree α β → Except Fault (Tree α β)
  | empty => .ok tree1
  | node ak _ l r _ =>
    match tree1 with
    | empty => .ok empty
    | tree1 => do
      let l1 ← splitLt O join ak tree1
      let r1 ← splitGt O join ak tree1
      let l ← difference l1 l
      let r ← difference r1 r
      concat O join l r

/-- `node/intersection`. -/
def intersection (tree1 : Tree α β) : Tree α β → Except Fault (Tree α β)
  | empty => .ok empty
  | node ak av l r _ =>
    match tree1 with
    | empty => .ok empty
    | tree1 => do
      let l1 ← splitLt O join ak tree1
      let r1 ← splitGt O join ak tree1
      let l ← intersection l1 l
      let r ← intersection r1 r
      if (find O ak tree1).isSome then concat3 O join ak av l r else concat O join l r

end

/-! ## Validity -/

/-- `balanced?`. -/
def balanced : Tree α β → Bool
  | empty => true
  | node _ _ l r _ =>
    !overweight l.weight r.weight && !overweight r.weight l.weight && balanced l && balanced r

/-- `ordered?`. -/
def ordered (O : KeyOrder α) : (α → Bool) → (α → Bool) → Tree α β → Bool
  | _, _, empty => true
  | notTooLow, notTooHigh, node k _ l r _ =>
    notTooLow k && notTooHigh k && ordered O notTooLow (fun k' => O.lt k' k) l &&
      ordered O (fun k' => O.lt k k') notTooHigh r

/-- `wt-tree/valid?`. -/
def valid (O : KeyOrder α) (root : Tree α β) : Bool :=
  balanced root && ordered O (fun _ => true) (fun _ => true) root

/-- A `t-join` that stops when the tree it makes is not balanced. -/
def checkedJoin (k : α) (v : β) (l r : Tree α β) : Except Fault (Tree α β) := do
  let t ← tJoin k v l r
  if balanced t then .ok t else .error .unbalanced

/-! ## Trees built from empty ones -/

inductive Build (α β : Type)
  | empty
  | add (tree : Build α β) (key : α) (datum : β)
  | delete (tree : Build α β) (key : α)
  | deleteMin (tree : Build α β)
  | splitLt (tree : Build α β) (key : α)
  | splitGt (tree : Build α β) (key : α)
  | union (tree1 tree2 : Build α β)
  | unionMerge (tree1 tree2 : Build α β) (merge : α → β → β → β)
  | intersection (tree1 tree2 : Build α β)
  | difference (tree1 tree2 : Build α β)

namespace Build

def eval (O : KeyOrder α) (join : Join α β) : Build α β → Except Fault (Tree α β)
  | empty => .ok .empty
  | add b key datum => do
    let tree ← eval O join b
    WtTree.add O join key datum tree
  | delete b key => do
    let tree ← eval O join b
    WtTree.delete O join key tree
  | deleteMin b => do
    let tree ← eval O join b
    delmin join tree
  | splitLt b key => do
    let tree ← eval O join b
    WtTree.splitLt O join key tree
  | splitGt b key => do
    let tree ← eval O join b
    WtTree.splitGt O join key tree
  | union b c => do
    let tree1 ← eval O join b
    let tree2 ← eval O join c
    WtTree.union O join tree1 tree2
  | unionMerge b c merge => do
    let tree1 ← eval O join b
    let tree2 ← eval O join c
    WtTree.unionMerge O join merge tree1 tree2
  | intersection b c => do
    let tree1 ← eval O join b
    let tree2 ← eval O join c
    WtTree.intersection O join tree1 tree2
  | difference b c => do
    let tree1 ← eval O join b
    let tree2 ← eval O join c
    WtTree.difference O join tree1 tree2

def Defined (O : KeyOrder α) : Build α β → Prop
  | empty => True
  | add b _ _ | delete b _ | splitLt b _ | splitGt b _ => b.Defined O
  | deleteMin b => b.Defined O ∧ b.eval O tJoin ≠ .ok .empty
  | union b c | unionMerge b c _ | intersection b c | difference b c =>
    b.Defined O ∧ c.Defined O

end Build

end MitScheme.Runtime.WtTree
