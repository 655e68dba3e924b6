import PingServer.Lib.Bytes
import PingServer.Lib.Probing

/-!
# The hash table

`hash_table.c`: open addressing with quadratic probing over a prime number of
slots. Values are byte blocks of one size in an array beside the slots. What
`calloc` and `malloc` give to a rehash is an argument of each operation.
-/

namespace PingServer

open ByteMem Probing

/-- `hash_t`. -/
abbrev Hash := BitVec 32

inductive HashStatus where
  | empty | alive | delete
  deriving DecidableEq, Repr

structure HashTableEntry where
  key : Hash
  status : HashStatus
  deriving DecidableEq, Repr

structure HashTable where
  table : Nat → HashTableEntry
  valArray : Memory
  valSize : Nat
  size : Nat
  deleteCount : BitVec 32
  aliveCount : BitVec 32

/-- A zeroed table of `size` slots; `vals` is what the value array contains. -/
def emptyTable (size valSize : Nat) (vals : Memory) : HashTable where
  table := fun _ => ⟨0, .empty⟩
  valArray := vals
  valSize := valSize
  size := size
  deleteCount := 0
  aliveCount := 0

/-- `hash_val_get`, as the bytes behind the pointer. -/
def hashValGet (h : HashTable) (pos : Nat) : List Byte :=
  (List.range h.valSize).map fun i => h.valArray (h.valSize * pos + i)

/-- `hash_val_cpy`, with the status and the key written in front of it. -/
def putEntry (h : HashTable) (pos : Nat) (hashKey : Hash) (val : List Byte) : HashTable :=
  { h with
    table := fun i => if i = pos then ⟨hashKey, .alive⟩ else h.table i
    valArray := storeBytes h.valArray (h.valSize * pos) val }

/-- Turn `i` of a probe, in 64 bits. -/
def probeSlot (size : Nat) (hashKey : Hash) (i : Nat) : Nat :=
  (hashKey.toNat + i * i) % 2 ^ 64 % size

/-! ## Insertion -/

/-- The loop of `_hash_insert_self`. `firstDeleted` is the first tombstone seen;
slots are below `MAX_PRIME_NUMBER`, so -1 in the source always means none. -/
def insertLoop (h : HashTable) (hashKey : Hash) (val : List Byte) :
    (fuel i : Nat) → (firstDeleted : Option Nat) → Bool × HashTable
  | 0, _, some d =>
    (true, { putEntry h d hashKey val with
      deleteCount := h.deleteCount - 1, aliveCount := h.aliveCount + 1 })
  | 0, _, none => (false, h)
  | fuel + 1, i, firstDeleted =>
    let temp := probeSlot h.size hashKey i
    let entry := h.table temp
    if entry.status = .alive ∧ entry.key = hashKey then (hashValGet h temp != val, h)
    else
      let firstDeleted :=
        if firstDeleted = none ∧ entry.status = .delete then some temp else firstDeleted
      if entry.status = .empty then
        match firstDeleted with
        | some d =>
          (true, { putEntry h d hashKey val with
            deleteCount := h.deleteCount - 1, aliveCount := h.aliveCount + 1 })
        | none => (true, { putEntry h temp hashKey val with aliveCount := h.aliveCount + 1 })
      else insertLoop h hashKey val fuel (i + 1) firstDeleted

/-- The loop of `hash_check` that moves the keys of `old` over. Their values are
found in 32 bits. -/
def rehashLoop (old : HashTable) : (fuel i : Nat) → HashTable → HashTable
  | 0, _, h => h
  | fuel + 1, i, h =>
    let entry := old.table i
    let val := (List.range old.valSize).map fun j => old.valArray (i * old.valSize % 2 ^ 32 + j)
    rehashLoop old fuel (i + 1)
      (if entry.status = .alive then (insertLoop h entry.key val h.size 0 none).2 else h)

/-- A rehash in place once the table is three quarters full and has a tombstone
for every third key. `alloc` is the new value array, if there is memory. -/
def hashCheck (h : HashTable) (alloc : Option Memory) : HashTable :=
  let totalOccupied := h.aliveCount + h.deleteCount
  if totalOccupied * 4 ≤ BitVec.ofNat 32 h.size * 3 ∨ h.deleteCount * 3 ≤ h.aliveCount then h
  else
    match alloc with
    | none => h
    | some vals => rehashLoop h h.size 0 (emptyTable h.size h.valSize vals)

def hashInsert (h : HashTable) (hashKey : Hash) (val : List Byte) (alloc : Option Memory) :
    Bool × HashTable :=
  let h := hashCheck h alloc
  insertLoop h hashKey val h.size 0 none

/-! ## Lookup and deletion -/

def queryLoop (h : HashTable) (hash : Hash) : (fuel i : Nat) → Option (List Byte)
  | 0, _ => none
  | fuel + 1, i =>
    let temp := probeSlot h.size hash i
    let entry := h.table temp
    if entry.status = .alive ∧ entry.key = hash then some (hashValGet h temp)
    else if entry.status = .empty then none
    else queryLoop h hash fuel (i + 1)

def hashQuery (h : HashTable) (hash : Hash) : Option (List Byte) := queryLoop h hash h.size 0

/-- Here the square is computed in 32 bits. -/
def deleteSlot (size : Nat) (hash : Hash) (i : Nat) : Nat :=
  (hash.toNat + i * i % 2 ^ 32) % size

def deleteLoop (h : HashTable) (hash : Hash) : (fuel i : Nat) → Bool × HashTable
  | 0, _ => (false, h)
  | fuel + 1, i =>
    let temp := deleteSlot h.size hash i
    let entry := h.table temp
    if entry.status = .alive ∧ entry.key = hash then
      (true, { h with
        table := fun j => if j = temp then { entry with status := .delete } else h.table j
        deleteCount := h.deleteCount + 1 })
    else if entry.status = .empty then (false, h)
    else deleteLoop h hash fuel (i + 1)

def hashDelete (h : HashTable) (hash : Hash) (alloc : Option Memory) : Bool × HashTable :=
  let h := hashCheck h alloc
  deleteLoop h hash h.size 0

end PingServer
