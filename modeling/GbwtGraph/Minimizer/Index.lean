import GbwtGraph.Minimizer.Extract

/-! # The hash table of the minimizer index

`MinimizerIndex` keeps the positions of the minimizers in an open-addressing hash table. A cell
holds a key and either the code of one position or the sorted codes of two or more; an empty cell
has the key `no_key()`. A key is looked for from `hash mod capacity` on, one slot at a time. A new
key goes to the first empty slot, and when the index then holds more keys than `max_keys`, the
table is doubled and every cell moved to its place in the new one.

Modelled from the spec (the layout, `insert`, `find` and the rehash policy of the table) and from
the tests of the index in the sources: the header of the index is not among them.
-/

namespace GbwtGraph

/-- `key_type::no_key()`, taken as the all-ones 64-bit word. -/
def noKey : Nat := 2 ^ 64 - 1

/-- The code of one position, or the sorted codes of two or more. -/
inductive CellValue where
  | single (code : Nat)
  | multi (codes : List Nat)
  deriving DecidableEq, Repr

def CellValue.codes : CellValue → List Nat
  | .single code => [code]
  | .multi codes => codes

structure Cell where
  key : Nat
  value : CellValue
  deriving DecidableEq, Repr

def emptyCell : Cell := ⟨noKey, .single noValue⟩

def initialCapacity : Nat := 1024

/-- `max_keys` of `capacity` cells, with a `MAX_LOAD_FACTOR` of 0.77. -/
def maxKeysOf (capacity : Nat) : Nat := capacity * 77 / 100

/-- `MinimizerIndex`: `k`, `w`, the table and the counters behind its size queries. -/
structure MinimizerIndex where
  k : Nat
  w : Nat
  hashTable : List Cell
  keys : Nat
  values : Nat
  unique : Nat
  maxKeys : Nat
  deriving DecidableEq, Repr

def MinimizerIndex.new (k w : Nat) : MinimizerIndex :=
  ⟨k, w, List.replicate initialCapacity emptyCell, 0, 0, 0, maxKeysOf initialCapacity⟩

/-- `get_minimizer(key)` of the tests. -/
def getMinimizer (key : Nat) : Minimizer := ⟨key, wangHash64 key, 0, false⟩

/-! ## Probing -/

def stopsAt (keys : List Nat) (key i : Nat) : Bool :=
  keys.getD i noKey == noKey || keys.getD i noKey == key

/-- Where a search stops, from `hash mod capacity` on around the table; none if nowhere. -/
def findSlot (keys : List Nat) (key hash : Nat) : Option Nat :=
  ((List.range keys.length).map fun attempt => (hash + attempt) % keys.length).find?
    (stopsAt keys key)

def findOffset (table : List Cell) (key hash : Nat) : Option Nat :=
  findSlot (table.map Cell.key) key hash

/-! ## Insertion -/

/-- `std::lower_bound` into sorted codes; none when the code is already there. -/
def insertCode (code : Nat) (codes : List Nat) : Option (List Nat) :=
  if (codes.dropWhile (· < code)).head? = some code then none
  else some (codes.takeWhile (· < code) ++ code :: codes.dropWhile (· < code))

def moveCell (table : List Cell) (cell : Cell) : Option (List Cell) :=
  if cell.key = noKey then some table
  else (findOffset table cell.key (wangHash64 cell.key)).map fun offset => table.set offset cell

/-- `rehash()`: twice the cells, the old ones moved over in slot order. -/
def MinimizerIndex.rehash (idx : MinimizerIndex) : Option MinimizerIndex :=
  (idx.hashTable.foldlM moveCell (List.replicate (2 * idx.hashTable.length) emptyCell)).map
    fun table => { idx with hashTable := table, maxKeys := maxKeysOf (2 * idx.hashTable.length) }

/-- `insert(key, pos, offset)`: a new cell, then a rehash past `max_keys`. -/
def MinimizerIndex.insertKey (idx : MinimizerIndex) (key code offset : Nat) :
    Option MinimizerIndex :=
  let idx := { idx with
    hashTable := idx.hashTable.set offset ⟨key, .single code⟩
    keys := idx.keys + 1, values := idx.values + 1, unique := idx.unique + 1 }
  if idx.maxKeys < idx.keys then idx.rehash else some idx

/-- `append(pos, offset)`: one more code for the key of the cell at `offset`. -/
def MinimizerIndex.append (idx : MinimizerIndex) (code offset : Nat) : MinimizerIndex :=
  match idx.hashTable.getD offset emptyCell with
  | ⟨key, .single old⟩ =>
    if old = code then idx
    else { idx with
      hashTable := idx.hashTable.set offset
        ⟨key, .multi (if old < code then [old, code] else [code, old])⟩
      values := idx.values + 1
      unique := idx.unique - 1 }
  | ⟨key, .multi codes⟩ =>
    match insertCode code codes with
    | none => idx
    | some codes =>
      { idx with
        hashTable := idx.hashTable.set offset ⟨key, .multi codes⟩
        values := idx.values + 1 }

/-- `insert(minimizer, pos)`; none where the search finds no slot and the code asserts. -/
def MinimizerIndex.insert (idx : MinimizerIndex) (m : Minimizer) (pos : Pos) :
    Option MinimizerIndex :=
  if m.key = noKey ∨ pos.encode = noValue then some idx
  else match findOffset idx.hashTable m.key m.hash with
    | none => none
    | some offset =>
      if (idx.hashTable.getD offset emptyCell).key = noKey then
        idx.insertKey m.key pos.encode offset
      else if (idx.hashTable.getD offset emptyCell).key = m.key then
        some (idx.append pos.encode offset)
      else some idx

/-- `find(minimizer)`: the positions of the key, in the order of their codes. -/
def MinimizerIndex.find (idx : MinimizerIndex) (m : Minimizer) : List Pos :=
  if m.key = noKey then []
  else match findOffset idx.hashTable m.key m.hash with
    | none => []
    | some offset =>
      if (idx.hashTable.getD offset emptyCell).key = m.key then
        (idx.hashTable.getD offset emptyCell).value.codes.map Pos.decode
      else []

def MinimizerIndex.insertAll (idx : MinimizerIndex) (ops : List (Minimizer × Pos)) :
    Option MinimizerIndex :=
  ops.foldlM (fun idx op => idx.insert op.1 op.2) idx

end GbwtGraph
