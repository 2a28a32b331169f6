import Mathlib.Data.BitVec
import Mathlib.Data.List.FinRange
import Mathlib.Tactic.Common

/-! The global latch word of a page.

The word is a sum: every shared holder adds its bit, the exclusive holder adds its byte at the
top.  Compute nodes have even ids; the node with index `node` has the id `2 * node`, so that
`node_id / 2` of the code is the index. -/
namespace MemoryEngine.Selcc

abbrev Word := BitVec 64

inductive Mode where
  | shared
  | exclusive
deriving DecidableEq

/-- `1ull << (node_id / 2 + 1)`. -/
def sharedBit (node : ℕ) : Word := 1#64 <<< (node + 1)

/-- `((uint64_t) node_id / 2 + 100) << 56`. -/
def exclusiveByte (node : ℕ) : Word := BitVec.ofNat 64 (node + 100) <<< 56

def contribution (node : ℕ) : Mode → Word
  | .shared => sharedBit node
  | .exclusive => exclusiveByte node

/-- `word >> 56`. -/
def writeByte (word : Word) : ℕ := (word >>> 56).toNat

/-- `(word >> i) % 2 == 1`. -/
def remainBit (word : Word) (i : ℕ) : Bool := (word >>> i).toNat % 2 == 1

inductive Invalidate (n : ℕ) where
  | nothing
  | modified (holder : Fin n)
  | shared (holders : List (Fin n))

variable {n : ℕ}

/-- `target_compute_node_id` of a refused reader.  It is a `uint8_t`, so that twice the index is
cut to eight bits; the reader sends nothing to itself nor past the last node. -/
def rlockTarget (self : Fin n) (old : Word) : Invalidate n :=
  let target := (writeByte old - 100) % 128
  if h : target < n then
    if target = self then .nothing else .modified ⟨target, h⟩
  else .nothing

/-- A bit of a node that does not exist, left by operations that overtook each other. -/
def strayBit (n : ℕ) (old : Word) : Bool :=
  (List.range 55).any fun i => n ≤ i && remainBit old (i + 1)

def sharers (n : ℕ) (old : Word) : List (Fin n) :=
  (List.finRange n).filter fun node => node.val < 55 && remainBit old (node + 1)

/-- What `global_Wlock_and_read_page_with_INVALID` does with the word that its CAS returned:
`none` where it returns with the latch.  The last case is the `assert(false)` at the end of the
failure branch, which a release build falls through. -/
def wlockOutcome (self : Fin n) (old : Word) : Option (Invalidate n) :=
  if old = 0 then none
  else if writeByte old = self + 100 then some .nothing
  else if 100 ≤ writeByte old then
    some (if h : writeByte old - 100 < n then .modified ⟨_, h⟩ else .nothing)
  else if strayBit n old then some .nothing
  else if sharers n old = [] then none
  else some (.shared (sharers n old))

end MemoryEngine.Selcc
