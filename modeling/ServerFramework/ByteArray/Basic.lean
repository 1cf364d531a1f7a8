import ServerFramework.Lib.Overwrite

/-! # The chunked byte array

A `ByteArray` keeps its bytes in a linked list of blocks of one size. The list that
starts at `root_` is a list of nodes here and `cur_` is an index into it, `none`
standing for the null pointer. The copy loops of `write` and `read` walk the nodes
from `cur_` on. Sizes and positions are natural numbers; `ceil` in `AddCapacity` is
taken to be exact.
-/

namespace ServerFramework

open Overwrite

/-- The byte orders `SYLAR_LITTLE_ENDIAN` and `SYLAR_BIG_ENDIAN`. -/
inductive Endian | little | big
  deriving DecidableEq, Repr

/-- The contents of memory obtained by `new char[s]`: byte `i` of the `k`-th block allocated. -/
abbrev Heap := ℕ → ℕ → UInt8

/-- A storage block. -/
structure Node where
  ptr : List UInt8
  deriving DecidableEq, Repr

/-- A byte array over a list of blocks. -/
structure ByteArray where
  baseSize : ℕ
  position : ℕ
  capacity : ℕ
  size : ℕ
  endian : Endian
  nodes : List Node
  cur : Option ℕ
  /-- The number of blocks allocated so far, which selects the contents of the next one. -/
  allocs : ℕ
  deriving DecidableEq, Repr

namespace Node

def size (n : Node) : ℕ := n.ptr.length

def new (heap : Heap) (k s : ℕ) : Node := ⟨(List.range s).map (heap k)⟩

def memcpy (n : Node) (off : ℕ) (src : List UInt8) : Node := ⟨overwrite n.ptr off src⟩

@[simp] theorem size_new (heap : Heap) (k s : ℕ) : (new heap k s).size = s := by
  simp [new, size]

theorem size_memcpy {n : Node} {off : ℕ} {src : List UInt8} (h : off + src.length ≤ n.size) :
    (n.memcpy off src).size = n.size := length_overwrite h

end Node

namespace ByteArray

/-- How an operation fails: by `std::out_of_range`, by the `std::length_error` of a string
that would get too long, or by following `nullptr`. -/
inductive Error where
  | outOfRange (what : String)
  | lengthError
  | nullDeref
  deriving DecidableEq, Repr

/-- Operations on the array; what was done before a failure stays done. -/
abbrev M := EStateM Error ByteArray

def new (heap : Heap) (baseSize : ℕ) : ByteArray where
  baseSize := baseSize
  position := 0
  capacity := baseSize
  size := 0
  endian := .big
  nodes := [Node.new heap 0 baseSize]
  cur := some 0
  allocs := 1

def getReadSize (b : ByteArray) : ℕ := b.size - b.position

def getCapacity (b : ByteArray) : ℕ := b.capacity - b.position

/-- The pointer to the node with the given index, null past the end of the list. -/
def nodeAt (b : ByteArray) (i : ℕ) : Option ℕ := if i < b.nodes.length then some i else none

/-- Hang `count` new nodes behind the last one, as the loop of `AddCapacity` does. -/
def appendNodes (heap : Heap) (b : ByteArray) (count : ℕ) : ByteArray :=
  { b with
    nodes := b.nodes ++ (List.range count).map fun i => Node.new heap (b.allocs + i) b.baseSize
    capacity := b.capacity + count * b.baseSize
    allocs := b.allocs + count }

def addCapacity (heap : Heap) (b : ByteArray) (size : ℕ) : ByteArray :=
  if size = 0 then b
  else if b.getCapacity ≥ size then b
  else
    let count := (size - b.getCapacity + b.baseSize - 1) / b.baseSize
    let b' := b.appendNodes heap count
    -- `cur_ = first`, the first new node
    if b.getCapacity = 0 then { b' with cur := b'.nodeAt b.nodes.length } else b'

/-- The copy loop of `write` over the nodes from `cur_` on. The result has the new
contents of these nodes and the number of times `cur_` moved to its successor. -/
def writeLoop (npos : ℕ) (buf : List UInt8) : List Node → Except Error (List Node × ℕ)
  | [] => .error .nullDeref
  | n :: rest =>
    let ncap := n.size - npos
    if ncap ≥ buf.length then
      .ok (n.memcpy npos buf :: rest, if n.size = npos + buf.length then 1 else 0)
    else
      match writeLoop 0 (buf.drop ncap) rest with
      | .error e => .error e
      | .ok (rest', k) => .ok (n.memcpy npos (buf.take ncap) :: rest', k + 1)

/-- The copy loop of `read` over the nodes from `cur_` on. The result has the bytes
copied out and the number of times `cur_` moved to its successor. -/
def readLoop (npos size : ℕ) : List Node → Except Error (List UInt8 × ℕ)
  | [] => .error .nullDeref
  | n :: rest =>
    let ncap := n.size - npos
    if ncap ≥ size then
      .ok ((n.ptr.drop npos).take size, if n.size = npos + size then 1 else 0)
    else
      match readLoop 0 (size - ncap) rest with
      | .error e => .error e
      | .ok (bytes, k) => .ok ((n.ptr.drop npos).take ncap ++ bytes, k + 1)

/-- The part of `write` after `AddCapacity`. -/
def copyIn (buf : List UInt8) : M Unit := fun b =>
  match b.cur with
  | none => .error .nullDeref b
  | some c =>
    match writeLoop (b.position % b.baseSize) buf (b.nodes.drop c) with
    | .error e => .error e b
    | .ok (blocks, k) =>
      let position := b.position + buf.length
      .ok () { b with
        nodes := b.nodes.take c ++ blocks
        cur := b.nodeAt (c + k)
        position := position
        size := if position > b.size then position else b.size }

def write (heap : Heap) (buf : List UInt8) : M Unit := fun b =>
  if buf.length = 0 then .ok () b
  else copyIn buf (b.addCapacity heap buf.length)

def read (size : ℕ) : M (List UInt8) := fun b =>
  if size > b.getReadSize then .error (.outOfRange "not enough len") b
  else
    -- `cur_->size` is read before the loop, so a null `cur_` fails here even for `size == 0`
    match b.cur with
    | none => .error .nullDeref b
    | some c =>
      if size = 0 then .ok [] b
      else
        match readLoop (b.position % b.baseSize) size (b.nodes.drop c) with
        | .error e => .error e b
        | .ok (bytes, k) =>
          .ok bytes { b with cur := b.nodeAt (c + k), position := b.position + size }

/-- The search loop of `SetPosition`: how many nodes `cur_` moves past. -/
def seekLoop (v : ℕ) : List Node → Except Error ℕ
  | [] => .error .nullDeref
  | n :: rest =>
    if v > n.size then
      match seekLoop (v - n.size) rest with
      | .error e => .error e
      | .ok k => .ok (k + 1)
    else .ok (if v = n.size then 1 else 0)

def setPosition (v : ℕ) : M Unit := fun b =>
  if v > b.capacity then .error (.outOfRange "set_position out of range") b
  else
    match seekLoop v b.nodes with
    | .error e => .error e b
    | .ok k =>
      .ok () { b with position := v, size := if v > b.size then v else b.size, cur := b.nodeAt k }

def clear : M Unit := fun b =>
  .ok () { b with
    position := 0
    size := 0
    capacity := b.baseSize
    nodes := b.nodes.take 1
    cur := some 0 }

def setIsLittleEndian (val : Bool) : M Unit := fun b =>
  .ok () { b with endian := if val then .little else .big }

end ByteArray

end ServerFramework
