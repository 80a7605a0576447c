import FGDB.Common
import Mathlib.Data.Nat.Size
import Mathlib.Logic.Function.Basic

/-!
# The buddy allocator

The pool is a power of two of chunks, and its blocks are the nodes of a binary
tree that lies in an array. A request takes the leftmost free block that is as
large as its size rounded up to a power of two; a release climbs from the leaf at
the start of a block to the node that is in use. The products of `int` values
wrap around at 32 bits.
-/

namespace FGDB.Buddy

open Foundation

/-- `Kb`, and `MIN_CHUNK` is as large. -/
def kb : ℕ := 2 ^ 10

def minChunk : ℕ := 1 * kb

theorem kb_pos : 0 < kb := Nat.two_pow_pos 10

inductive BlockState
  | free
  | used
  | split
  deriving DecidableEq, Repr

/-- `struct buddy`. A byte of the tree that was never written is 0, which is FREE. -/
structure BuddyInfo where
  level : ℕ
  leaves : ℕ
  used : ℕ
  tree : ℕ → BlockState

/-- The loop counts the bits of the number. It ends for the numbers below `2 ^ 31`. -/
def bsqrt (num : ℕ) : ℕ := if 1 <<< (num.size - 1) = num then num.size - 1 else num.size

/-- The size of the pool is in kilobytes, and its bits are counted in 32 bits. -/
def buddyNew (size : ℕ) : BuddyInfo where
  level := bsqrt (wrap32 size) - bsqrt (minChunk / kb) + 1
  leaves := 1 <<< (bsqrt (wrap32 size) - bsqrt (minChunk / kb) + 1) - 1
  used := 0
  tree _ := .free

def levelFromPos (pos : ℕ) : ℕ := bsqrt (pos + 2)

/-- The product of two numbers of type `int`. -/
def intMul (a b : ℤ) : ℤ := Int.bmod (a * b) (2 ^ 32)

/-- The kilobytes of a node; the quotient of the division is signed and becomes unsigned. -/
def capasityFromPos (level pos : ℕ) : ℕ :=
  ((intMul (1 <<< (level - levelFromPos pos) : ℕ) minChunk).tdiv kb % 2 ^ 32).toNat

/-- The bytes from the start of the pool to the block of a node. -/
def blockAddress (level pos : ℕ) : ℕ :=
  wrap32 ((pos + 1) % 1 <<< (levelFromPos pos - 1) * capasityFromPos level pos * kb)

/-- A FREE node becomes USED as a whole. The position is returned beside the pointer. -/
def takeWhole (info : BuddyInfo) (pos : ℕ) : BuddyInfo × Option (ℕ × ℕ) :=
  ({ info with
    tree := Function.update info.tree pos .used
    used := wrap32 (info.used + capasityFromPos info.level pos) },
    some (pos, blockAddress info.level pos))

def markSplit (info : BuddyInfo) (pos : ℕ) : BuddyInfo :=
  { info with tree := Function.update info.tree pos .split }

/-- `_buddy_ack_memory`. The depth of the recursion is a parameter. The guard lets the position
behind the last leaf pass, at which there is no node to read. -/
def buddyAckMemory (kbytes : ℕ) : ℕ → ℕ → BuddyInfo → Outcome (BuddyInfo × Option (ℕ × ℕ))
  | 0, _, _ => .error .nontermination
  | depth + 1, pos, info =>
    if info.leaves < pos then .ok (info, none)
    else if capasityFromPos info.level pos < kbytes then .ok (info, none)
    else if info.leaves ≤ pos then .error .outOfBounds
    else
      match info.tree pos with
      | .free =>
        if kbytes ≤ capasityFromPos info.level pos / 2 then do
          match ← buddyAckMemory kbytes depth (2 * pos + 1) info with
          | (info, some block) => return (markSplit info pos, some block)
          | (info, none) =>
            match ← buddyAckMemory kbytes depth (2 * pos + 2) info with
            | (info, some block) => return (markSplit info pos, some block)
            | (info, none) => return takeWhole info pos
        else .ok (takeWhole info pos)
      | .split =>
        if capasityFromPos info.level pos / 2 < kbytes then .ok (info, none)
        else do
          match ← buddyAckMemory kbytes depth (2 * pos + 1) info with
          | (info, some block) => return (info, some block)
          | (info, none) => buddyAckMemory kbytes depth (2 * pos + 2) info
      | .used => .ok (info, none)

/-- The loop that counts the bits of a 32-bit number ends. -/
def BitsEnd (num : ℕ) : Prop := wrap32 num < 2 ^ 31

instance (num : ℕ) : Decidable (BitsEnd num) := inferInstanceAs (Decidable (_ < _))

/-- The kilobytes that a request is rounded up to, counted in 32 bits. -/
def allocSize (bytes : ℕ) : ℕ := 1 <<< bsqrt (wrap32 (bytes / kb))

def buddyAlloc (info : BuddyInfo) (bytes : ℕ) : Outcome (BuddyInfo × Option (ℕ × ℕ)) :=
  if BitsEnd (bytes / kb) then buddyAckMemory (allocSize bytes) (info.level + 1) 0 info
  else .error .nontermination

/-- The loop of `_buddy_merge`, from a parent on. -/
def buddyMergeFrom (tree : ℕ → BlockState) (parent : ℕ) : ℕ → BlockState :=
  if tree parent = .split ∧ tree (2 * parent + 1) = .free ∧ tree (2 * parent + 2) = .free then
    if parent = 0 then Function.update tree parent .free
    else buddyMergeFrom (Function.update tree parent .free) (parent / 2)
  else tree
termination_by parent

def buddyMerge (tree : ℕ → BlockState) (pos : ℕ) : ℕ → BlockState := buddyMergeFrom tree (pos / 2)

/-- Up from a FREE leaf. -/
def climb (tree : ℕ → BlockState) (pos : ℕ) : ℕ :=
  if 0 < pos ∧ tree pos = .free then climb tree (pos / 2) else pos
termination_by pos

/-- Down from a SPLIT node, to the left. -/
def descend (leaves : ℕ) (tree : ℕ → BlockState) (pos : ℕ) : ℕ :=
  if pos < leaves ∧ tree pos = .split then descend leaves tree (pos * 2 + 1) else pos
termination_by leaves - pos

/-- `buddy_free` of the pointer that is so many bytes into the pool. -/
def buddyFree (info : BuddyInfo) (offset : ℕ) : Outcome BuddyInfo := do
  let leaf := 1 <<< (info.level - 1) + offset / minChunk - 1
  if info.leaves ≤ leaf then .error .assertionFailed
  else
    let pos := match info.tree leaf with
      | .used => leaf
      | .free => climb info.tree leaf
      | .split => descend info.leaves info.tree leaf
    match info.tree pos with
    | .free | .split => .error .exit
    | .used => return { info with
      used := wrap32 (info.used + (2 ^ 32 - capasityFromPos info.level pos))
      tree := buddyMerge (Function.update info.tree pos .free) pos }

end FGDB.Buddy
