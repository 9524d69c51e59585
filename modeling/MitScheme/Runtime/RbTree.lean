import MitScheme.Lib.SortedMap

/-! # Red-black trees

The mutable trees of `rbtree.scm`: nodes with up pointers in a heap that several trees
share. The algorithms are left/right symmetric in a direction `d`. -/

namespace MitScheme.Runtime.RbTree
open Lib.SortedMap

/-! ## Nodes -/

abbrev NodeId := Nat
abbrev TreeId := Nat

/-- `none` is the color of a node that was just made. -/
inductive Color
  | none
  | red
  | black
  deriving DecidableEq

inductive Dir
  | left
  | right
  deriving DecidableEq

def bToD (left : Bool) : Dir := if left then .left else .right

/-- `-d`. -/
def Dir.neg : Dir → Dir
  | .left => .right
  | .right => .left

structure Node (α β : Type) where
  key : α
  datum : β
  up : Option NodeId
  left : Option NodeId
  right : Option NodeId
  color : Color

/-- `get-link+`. -/
def Node.link {α β : Type} (n : Node α β) : Dir → Option NodeId
  | .left => n.left
  | .right => n.right

def Node.setLink {α β : Type} (n : Node α β) (d : Dir) (l : Option NodeId) : Node α β :=
  match d with
  | .left => { n with left := l }
  | .right => { n with right := l }

inductive Fault
  /-- An accessor is given `#f`. -/
  | wrongType
  /-- `error:bad-range-argument` of `apply-fail`. -/
  | badRange
  | diverges

structure Heap (α β : Type) where
  nodes : NodeId → Node α β
  nodeCount : Nat
  roots : TreeId → Option NodeId
  treeCount : Nat

variable {α β : Type}

namespace Heap

def modify (h : Heap α β) (x : NodeId) (f : Node α β → Node α β) : Heap α β :=
  { h with nodes := Function.update h.nodes x (f (h.nodes x)) }

def setUp (h : Heap α β) (x : NodeId) (up : Option NodeId) : Heap α β :=
  h.modify x fun n => { n with up }

def setLink (h : Heap α β) (x : NodeId) (d : Dir) (l : Option NodeId) : Heap α β :=
  h.modify x fun n => n.setLink d l

def setColor (h : Heap α β) (x : NodeId) (color : Color) : Heap α β :=
  h.modify x fun n => { n with color }

def setRoot (h : Heap α β) (t : TreeId) (root : Option NodeId) : Heap α β :=
  { h with roots := Function.update h.roots t root }

def makeNode (h : Heap α β) (key : α) (datum : β) : Heap α β :=
  { h with
    nodes := Function.update h.nodes h.nodeCount ⟨key, datum, none, none, none, .none⟩
    nodeCount := h.nodeCount + 1 }

def deref : Option NodeId → Except Fault NodeId
  | some x => .ok x
  | none => .error .wrongType

def isRed (h : Heap α β) (x : Option NodeId) : Bool :=
  match x with
  | some x => decide ((h.nodes x).color = .red)
  | none => false

def fuel (h : Heap α β) : Nat := h.nodeCount + 1

/-- The link of `u` that holds `x` is set to `y`. -/
def replaceChild (h : Heap α β) (t : TreeId) (u : Option NodeId) (d : Dir) (x : NodeId)
    (y : Option NodeId) : Heap α β :=
  match u with
  | none => h.setRoot t y
  | some u => if (h.nodes u).link d = some x then h.setLink u d y else h.setLink u d.neg y

def rotate (h : Heap α β) (t : TreeId) (x : NodeId) (d : Dir) : Except Fault (Heap α β) :=
  match (h.nodes x).link d.neg with
  | none => .error .wrongType
  | some y =>
    let beta := (h.nodes y).link d
    let h := h.setLink x d.neg beta
    let h :=
      match beta with
      | some beta => h.setUp beta (some x)
      | none => h
    let u := (h.nodes x).up
    let h := h.setUp y u
    let h := h.replaceChild t u d x (some y)
    let h := h.setLink y d (some x)
    .ok (h.setUp x (some y))

/-! ## Insertion -/

/-- Case 3 of `insert-fixup!`. -/
def insertCase3 (h : Heap α β) (t : TreeId) (x : NodeId) (d : Dir) : Except Fault (Heap α β) := do
  let u ← deref (h.nodes x).up
  let h := h.setColor u .black
  let g ← deref (h.nodes u).up
  let h := h.setColor g .red
  h.rotate t g d.neg

/-- Cases 2 and 3 of `insert-fixup!`. -/
def insertCase2 (h : Heap α β) (t : TreeId) (x u : NodeId) (d : Dir) :
    Except Fault (Heap α β) := do
  if (h.nodes u).link d.neg = some x then
    let h ← h.rotate t u d
    h.insertCase3 t u d
  else h.insertCase3 t x d

def insertFixupLoop (t : TreeId) : Nat → NodeId → Heap α β → Except Fault (Heap α β)
  | 0, _, _ => .error .diverges
  | fuel + 1, x, h =>
    match (h.nodes x).up with
    | none => .ok h
    | some u =>
      if (h.nodes u).color = .red then
        match (h.nodes u).up with
        | none => .error .wrongType
        | some g =>
          let d := bToD ((h.nodes g).left = some u)
          match (h.nodes g).link d.neg with
          | none => h.insertCase2 t x u d
          | some y =>
            if (h.nodes y).color = .red then
              insertFixupLoop t fuel g
                (((h.setColor u .black).setColor y .black).setColor g .red)
            else h.insertCase2 t x u d
      else .ok h

def blackenRoot (h : Heap α β) (t : TreeId) : Except Fault (Heap α β) := do
  let root ← deref (h.roots t)
  .ok (h.setColor root .black)

def insertFixup (h : Heap α β) (t : TreeId) (x : NodeId) : Except Fault (Heap α β) := do
  let h ← insertFixupLoop t h.fuel x h
  h.blackenRoot t

/-- The link to a new node, below `y`. -/
def linkChild (h : Heap α β) (t : TreeId) (y : Option NodeId) (d : Dir) (z : NodeId) : Heap α β :=
  match y with
  | none => h.setRoot t (some z)
  | some y => h.setLink y d (some z)

/-- The new node of `rb-tree/insert!`, below `y`. -/
def insertNode (h : Heap α β) (t : TreeId) (key : α) (datum : β) (y : Option NodeId) (d : Dir) :
    Except Fault (Heap α β) :=
  let z := h.nodeCount
  let h := (h.makeNode key datum).setUp z y
  let h := h.linkChild t y d z
  (h.setColor z .red).insertFixup t z

def insertLoop (O : KeyOrder α) (t : TreeId) (key : α) (datum : β) :
    Nat → Option NodeId → Option NodeId → Dir → Heap α β → Except Fault (Heap α β)
  | _, none, y, d, h => h.insertNode t key datum y d
  | 0, some _, _, _, _ => .error .diverges
  | fuel + 1, some x, _, _, h =>
    if O.eq key (h.nodes x).key then .ok (h.modify x fun n => { n with datum })
    else if O.lt key (h.nodes x).key then
      insertLoop O t key datum fuel (h.nodes x).left (some x) .left h
    else insertLoop O t key datum fuel (h.nodes x).right (some x) .right h

/-- `rb-tree/insert!`. -/
def insert (O : KeyOrder α) (h : Heap α β) (t : TreeId) (key : α) (datum : β) :
    Except Fault (Heap α β) :=
  insertLoop O t key datum h.fuel (h.roots t) none .right h

/-! ## Neighbours -/

def extreme (h : Heap α β) (d : Dir) : Nat → NodeId → Except Fault NodeId
  | 0, _ => .error .diverges
  | fuel + 1, x =>
    match (h.nodes x).link d with
    | some y => h.extreme d fuel y
    | none => .ok x

def climb (h : Heap α β) (d : Dir) : Nat → NodeId → Except Fault (Option NodeId)
  | 0, _ => .error .diverges
  | fuel + 1, x =>
    match (h.nodes x).up with
    | some y => if (h.nodes y).link d = some x then h.climb d fuel y else .ok (some y)
    | none => .ok none

def neighbour (h : Heap α β) (d : Dir) (x : NodeId) : Except Fault (Option NodeId) :=
  match (h.nodes x).link d with
  | some y => (h.extreme d.neg h.fuel y).map some
  | none => h.climb d h.fuel x

def nextNode (h : Heap α β) (x : NodeId) : Except Fault (Option NodeId) := h.neighbour .right x
def prevNode (h : Heap α β) (x : NodeId) : Except Fault (Option NodeId) := h.neighbour .left x

def extremeNode (h : Heap α β) (t : TreeId) (d : Dir) : Except Fault (Option NodeId) :=
  match h.roots t with
  | some root => (h.extreme d h.fuel root).map some
  | none => .ok none

def maxNode (h : Heap α β) (t : TreeId) : Except Fault (Option NodeId) := h.extremeNode t .right

/-! ## Deletion -/

/-- Case 4 of `delete-fixup!`. -/
def deleteCase4 (h : Heap α β) (t : TreeId) (u : NodeId) (d : Dir) (w : NodeId) :
    Except Fault (Heap α β) := do
  let h := (h.setColor w (h.nodes u).color).setColor u .black
  let n ← deref ((h.nodes w).link d.neg)
  let h ← (h.setColor n .black).rotate t u d
  h.blackenRoot t

/-- Case 1 of `delete-fixup!`: the brother becomes black. -/
def deleteCase1 (h : Heap α β) (t : TreeId) (u : NodeId) (d : Dir) (w : NodeId) :
    Except Fault (NodeId × Heap α β) := do
  if (h.nodes w).color = .red then
    let h ← ((h.setColor w .black).setColor u .red).rotate t u d
    let w ← deref ((h.nodes u).link d.neg)
    .ok (w, h)
  else .ok (w, h)

/-- Case 3 of `delete-fixup!`. -/
def deleteCase3 (h : Heap α β) (t : TreeId) (u : NodeId) (d : Dir) (w n : NodeId) :
    Except Fault (Heap α β) := do
  let h ← ((h.setColor n .black).setColor w .red).rotate t w d.neg
  let w ← deref ((h.nodes u).link d.neg)
  h.deleteCase4 t u d w

/-- Cases 2, 3 and 4 of `delete-fixup!`; `loop` goes on from `u`. -/
def deleteCases (h : Heap α β) (t : TreeId) (u : NodeId) (d : Dir) (w : NodeId)
    (loop : Heap α β → Except Fault (Heap α β)) : Except Fault (Heap α β) :=
  if h.isRed ((h.nodes w).link d.neg) then h.deleteCase4 t u d w
  else
    match (h.nodes w).link d with
    | none => loop (h.setColor w .red)
    | some n =>
      if (h.nodes n).color = .black then loop (h.setColor w .red)
      else h.deleteCase3 t u d w n

def deleteFixup (t : TreeId) :
    Nat → Option NodeId → Option NodeId → Heap α β → Except Fault (Heap α β)
  | 0, _, _, _ => .error .diverges
  | _ + 1, none, none, h => .ok h
  | _ + 1, some x, none, h => .ok (h.setColor x .black)
  | fuel + 1, x, some u, h =>
    if h.isRed x then
      match x with
      | some x => .ok (h.setColor x .black)
      | none => .ok h
    else do
      let d := bToD (x = (h.nodes u).left)
      let w ← deref ((h.nodes u).link d.neg)
      let (w, h) ← h.deleteCase1 t u d w
      h.deleteCases t u d w fun h => deleteFixup t fuel (some u) (h.nodes u).up h

/-- The rest of `delete-node!`, when `z` has at most one child. -/
def unlinkNode (h : Heap α β) (t : TreeId) (z : NodeId) : Except Fault (Heap α β) :=
  let x := (h.nodes z).left <|> (h.nodes z).right
  let u := (h.nodes z).up
  let color := (h.nodes z).color
  let h :=
    match x with
    | some x => h.setUp x u
    | none => h
  let h := h.replaceChild t u .left z x
  if color = .black then deleteFixup t h.fuel x u h else .ok h

def deleteNode (h : Heap α β) (t : TreeId) (z : NodeId) : Except Fault (Heap α β) := do
  if (h.nodes z).left.isSome ∧ (h.nodes z).right.isSome then
    let y ← h.nextNode z
    let y ← deref y
    let h := h.modify z fun n => { n with key := (h.nodes y).key, datum := (h.nodes y).datum }
    h.unlinkNode t y
  else h.unlinkNode t z

def findLoop (O : KeyOrder α) (key : α) (h : Heap α β) :
    Nat → Option NodeId → Except Fault (Option NodeId)
  | _, none => .ok none
  | 0, some _ => .error .diverges
  | fuel + 1, some x =>
    if O.eq key (h.nodes x).key then .ok (some x)
    else if O.lt key (h.nodes x).key then findLoop O key h fuel (h.nodes x).left
    else findLoop O key h fuel (h.nodes x).right

def findNode (O : KeyOrder α) (h : Heap α β) (t : TreeId) (key : α) :
    Except Fault (Option NodeId) :=
  findLoop O key h h.fuel (h.roots t)

/-- `rb-tree/delete!`, whose loop is that of `find-node`. -/
def delete (O : KeyOrder α) (h : Heap α β) (t : TreeId) (key : α) : Except Fault (Heap α β) := do
  match ← h.findNode O t key with
  | none => .ok h
  | some x => h.deleteNode t x

/-- `rb-tree/delete-min!` and `rb-tree/delete-max!`, with the key they return. -/
def deleteExtreme (h : Heap α β) (t : TreeId) (d : Dir) (default : α) :
    Except Fault (α × Heap α β) := do
  match ← h.extremeNode t d with
  | none => .ok (default, h)
  | some x =>
    let key := (h.nodes x).key
    let h ← h.deleteNode t x
    .ok (key, h)

def deleteMin (h : Heap α β) (t : TreeId) (default : α) : Except Fault (α × Heap α β) :=
  h.deleteExtreme t .left default

def deleteMax (h : Heap α β) (t : TreeId) (default : α) : Except Fault (α × Heap α β) :=
  h.deleteExtreme t .right default

/-! ## The other operations -/

/-- `rb-tree/lookup`. -/
def lookup (O : KeyOrder α) (h : Heap α β) (t : TreeId) (key : α) (default : β) :
    Except Fault β := do
  match ← h.findNode O t key with
  | some x => .ok (h.nodes x).datum
  | none => .ok default

/-- `rb-tree/intern!`, with the value of `fail`. -/
def intern (O : KeyOrder α) (h : Heap α β) (t : TreeId) (key : α) (fail : β) :
    Except Fault (β × Heap α β) := do
  match ← h.findNode O t key with
  | some x => .ok ((h.nodes x).datum, h)
  | none =>
    let h ← h.insert O t key fail
    .ok (fail, h)

def applySucceed (succeed : Option (β → β)) (datum : β) : β :=
  match succeed with
  | none => datum
  | some succeed => succeed datum

def applyFail (fail : Option β) : Except Fault β :=
  match fail with
  | none => .error .badRange
  | some datum => .ok datum

/-- `rb-tree/update!`, with the value of `fail`. -/
def update (O : KeyOrder α) (h : Heap α β) (t : TreeId) (key : α) (updater : β → β)
    (fail : Option β) (succeed : Option (β → β)) : Except Fault (Heap α β) := do
  match ← h.findNode O t key with
  | some x =>
    .ok (h.modify x fun n => { n with datum := updater (applySucceed succeed n.datum) })
  | none =>
    let datum ← applyFail fail
    h.insert O t key (updater datum)

def makeRbTree (h : Heap α β) : Heap α β :=
  { h with roots := Function.update h.roots h.treeCount none, treeCount := h.treeCount + 1 }

def copyLoop : Nat → Option NodeId → Option NodeId → Heap α β →
    Except Fault (Option NodeId × Heap α β)
  | _, none, _, h => .ok (none, h)
  | 0, some _, _, _ => .error .diverges
  | fuel + 1, some x, up, h => do
    let n := h.nodeCount
    let h := h.makeNode (h.nodes x).key (h.nodes x).datum
    let h := (h.setColor n (h.nodes x).color).setUp n up
    let (left, h) ← copyLoop fuel (h.nodes x).left (some n) h
    let h := h.setLink n .left left
    let (right, h) ← copyLoop fuel (h.nodes x).right (some n) h
    .ok (some n, h.setLink n .right right)

/-- `rb-tree/copy`. -/
def copy (h : Heap α β) (t : TreeId) : Except Fault (Heap α β) := do
  let result := h.treeCount
  let h := h.makeRbTree
  let (root, h) ← copyLoop h.fuel (h.roots t) none h
  .ok (h.setRoot result root)

/-- `rb-tree/clear!`. -/
def clear (h : Heap α β) (t : TreeId) : Heap α β := h.setRoot t none

def sizeLoop (h : Heap α β) : Nat → Option NodeId → Except Fault Nat
  | _, none => .ok 0
  | 0, some _ => .error .diverges
  | fuel + 1, some x => do
    let left ← h.sizeLoop fuel (h.nodes x).left
    let right ← h.sizeLoop fuel (h.nodes x).right
    .ok (1 + left + right)

/-- `rb-tree/size`. -/
def size (h : Heap α β) (t : TreeId) : Except Fault Nat := h.sizeLoop h.fuel (h.roots t)

def foldRightLoop {γ : Type} (h : Heap α β) (kons : α → β → γ → γ) :
    Nat → Option NodeId → γ → Except Fault γ
  | _, none, acc => .ok acc
  | 0, some _, _ => .error .diverges
  | fuel + 1, some x, acc => do
    let prev ← h.prevNode x
    h.foldRightLoop kons fuel prev (kons (h.nodes x).key (h.nodes x).datum acc)

/-- `rb-tree/fold-right`. -/
def foldRight {γ : Type} (h : Heap α β) (t : TreeId) (kons : α → β → γ → γ) (knil : γ) :
    Except Fault γ := do
  let node ← h.maxNode t
  h.foldRightLoop kons h.fuel node knil

/-- `rb-tree->alist`. -/
def toAlist (h : Heap α β) (t : TreeId) : Except Fault (List (α × β)) :=
  h.foldRight t (fun key datum acc => (key, datum) :: acc) []

/-- `rb-tree/min` and `rb-tree/max`. -/
def extremeKey (h : Heap α β) (t : TreeId) (d : Dir) (default : α) : Except Fault α := do
  match ← h.extremeNode t d with
  | some x => .ok (h.nodes x).key
  | none => .ok default

def min (h : Heap α β) (t : TreeId) (default : α) : Except Fault α := h.extremeKey t .left default
def max (h : Heap α β) (t : TreeId) (default : α) : Except Fault α := h.extremeKey t .right default

end Heap

/-! ## Histories -/

/-- A history makes trees and changes them. The procedures that `rb-tree/update!` and
`rb-tree/intern!` are given do not change trees. -/
inductive Action (α β : Type)
  | make
  | insert (t : TreeId) (key : α) (datum : β)
  | delete (t : TreeId) (key : α)
  | update (t : TreeId) (key : α) (updater : β → β) (fail : Option β) (succeed : Option (β → β))
  | intern (t : TreeId) (key : α) (fail : β)
  | deleteMin (t : TreeId) (default : α)
  | deleteMax (t : TreeId) (default : α)
  | copy (t : TreeId)
  | clear (t : TreeId)

namespace Heap

def step (O : KeyOrder α) (h : Heap α β) : Action α β → Except Fault (Heap α β)
  | .make => .ok h.makeRbTree
  | .insert t key datum => h.insert O t key datum
  | .delete t key => h.delete O t key
  | .update t key updater fail succeed => h.update O t key updater fail succeed
  | .intern t key fail => (h.intern O t key fail).map Prod.snd
  | .deleteMin t default => (h.deleteMin t default).map Prod.snd
  | .deleteMax t default => (h.deleteMax t default).map Prod.snd
  | .copy t => h.copy t
  | .clear t => .ok (h.clear t)

def run (O : KeyOrder α) (h : Heap α β) : List (Action α β) → Except Fault (Heap α β)
  | [] => .ok h
  | action :: actions =>
    match h.step O action with
    | .ok h => h.run O actions
    | .error .badRange => h.run O actions
    | .error e => .error e

end Heap

end MitScheme.Runtime.RbTree
