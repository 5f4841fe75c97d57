import LiburingServer.Common
import LiburingServer.Lib.IndexList
import LiburingServer.Lib.Runs
import Mathlib.Data.Fintype.Basic

/-! The file cache `cache<N>` of `cache.h`. A slot index is `-1` or below `N` everywhere in the source,
so it is an `Option (Fin N)` here; an operation that would index `cache_buffer` with `-1` has no
result. The value `inotify_add_watch` returns and the element an unordered set yields first come
from the environment and are arguments of the operations. -/

namespace LiburingServer

structure CacheItem (N : ℕ) where
  buffer : Bytes := []
  lockNumber : ℤ := 0
  nextItemIdx : Option (Fin N) := none
  prevItemIdx : Option (Fin N) := none
  outdated : Bool := false
  watch : ℤ := 0
  deriving DecidableEq

/-- The result of a fetch: `buff` is the slot whose buffer the returned pointer points into, `bytes`
what stands there. -/
structure CacheFetchItem (N : ℕ) where
  found : Bool
  size : ℕ := 2 ^ 64 - 1
  buff : Option (Fin N) := none
  bytes : Bytes := []
  deriving DecidableEq

structure Cache (N : ℕ) where
  filepathToCacheIdx : Bytes → Option (Fin N) := fun _ => none
  cacheIdxToFilepath : Fin N → Option Bytes := fun _ => none
  cacheBuffer : Fin N → CacheItem N := fun _ => {}
  freeIdxs : Finset (Fin N) := Finset.univ
  clientIdxToCacheIdx : ℕ → Option (Fin N) := fun _ => none
  highestIdx : Option (Fin N) := none
  lowestIdx : Option (Fin N) := none
  watchToCacheIdx : ℤ → Option (Fin N) := fun _ => none

namespace Cache

variable {N : ℕ}

def modifyItem (c : Cache N) (i : Fin N) (f : CacheItem N → CacheItem N) : Cache N :=
  { c with cacheBuffer := Function.update c.cacheBuffer i (f (c.cacheBuffer i)) }

/-- `*free_idxs.cbegin()`: the hash table yields `first` first if it holds it. -/
def cbegin (idxs : Finset (Fin N)) (first : ℕ) : Option (Fin N) :=
  match (List.finRange N).find? fun i => i.val = first ∧ i ∈ idxs with
  | some i => some i
  | none => (List.finRange N).find? fun i => i ∈ idxs

/-- The slot `client_idx_to_cache_idx[client_idx]` reads: `operator[]` creates a missing entry as 0. -/
def cacheIdxOf (c : Cache N) (clientIdx : ℕ) : Option (Fin N) :=
  (c.clientIdxToCacheIdx clientIdx).or (if h : 0 < N then some ⟨0, h⟩ else none)

def foundItem (c : Cache N) (i : Fin N) : CacheFetchItem N where
  found := true
  size := (c.cacheBuffer i).buffer.length
  buff := some i
  bytes := (c.cacheBuffer i).buffer

/-- Removal of an outdated item: its watch and its contents go and the slot becomes free. -/
def removeOutdated (c : Cache N) (i : Fin N) : Cache N :=
  { c with
    watchToCacheIdx := Function.update c.watchToCacheIdx (c.cacheBuffer i).watch none
    freeIdxs := insert i c.freeIdxs
    cacheBuffer := Function.update c.cacheBuffer i {} }

/-- The lock, the client's mapping and the `using_file` mark that every hit takes first. -/
def lockItem (c : Cache N) (i : Fin N) (clientIdx : ℕ) : Cache N :=
  { c.modifyItem i (fun item => { item with lockNumber := item.lockNumber + 1 }) with
    clientIdxToCacheIdx := Function.update c.clientIdxToCacheIdx clientIdx (some i) }

/-- Links the neighbours of a slot that has a next item to each other. -/
def detachItem (c : Cache N) (i n : Fin N) : Cache N :=
  match (c.cacheBuffer i).prevItemIdx with
  | some p =>
      (c.modifyItem p fun item => { item with nextItemIdx := some n }).modifyItem n
        fun item => { item with prevItemIdx := some p }
  | none =>
      { c.modifyItem n (fun item => { item with prevItemIdx := none }) with lowestIdx := some n }

def fetchItem (c : Cache N) (filepath : Bytes) (clientIdx : ℕ) (client : TcpClient) :
    Option (Cache N × TcpClient × CacheFetchItem N) :=
  match c.filepathToCacheIdx filepath with
  | none => some (c, client, { found := false })
  | some currentIdx =>
      let client := { client with usingFile := true }
      let c := c.lockItem currentIdx clientIdx
      let item := c.cacheBuffer currentIdx
      match item.nextItemIdx with
      | none =>
          -- cannot promote the highest one more
          if item.outdated then
            let c := match item.prevItemIdx with
              | some p => c.modifyItem p fun prev => { prev with nextItemIdx := none }
              | none => c
            some (c.removeOutdated currentIdx, client, { found := false })
          else some (c, client, c.foundItem currentIdx)
      | some n =>
          let c := c.detachItem currentIdx n
          if item.outdated then
            some (c.removeOutdated currentIdx, client, { found := false })
          else
            match c.highestIdx with
            | none => none
            | some h =>
                let c := c.modifyItem h fun item => { item with nextItemIdx := some currentIdx }
                let c := c.modifyItem currentIdx fun item =>
                  { item with nextItemIdx := none, prevItemIdx := some h }
                let c := { c with highestIdx := some currentIdx }
                some (c, client, c.foundItem currentIdx)

/-- The second half of `try_insert_item`: the item goes into its slot at the high end. -/
def insertAt (c : Cache N) (i : Fin N) (filepath buff : Bytes) (wd : ℤ) : Cache N :=
  let c := match c.highestIdx with
    | some h => c.modifyItem h fun item => { item with nextItemIdx := some i }
    | none => c
  let c := { c with
    filepathToCacheIdx := Function.update c.filepathToCacheIdx filepath (some i)
    cacheIdxToFilepath := Function.update c.cacheIdxToFilepath i (some filepath)
    watchToCacheIdx := Function.update c.watchToCacheIdx wd (some i) }
  let c := c.modifyItem i fun item =>
    { item with watch := wd, prevItemIdx := c.highestIdx, nextItemIdx := none, buffer := buff }
  { c with highestIdx := some i }

/-- The lowest item leaves its slot; `low` and `newLow` are the lowest and the second lowest slot. -/
def evictLowest (c : Cache N) (low newLow : Fin N) : Cache N :=
  let c := c.modifyItem newLow fun item => { item with prevItemIdx := none }
  { c with
    watchToCacheIdx := Function.update c.watchToCacheIdx (c.cacheBuffer low).watch none
    cacheBuffer := Function.update c.cacheBuffer low {}
    filepathToCacheIdx :=
      Function.update c.filepathToCacheIdx ((c.cacheIdxToFilepath low).getD []) none
    cacheIdxToFilepath := Function.update c.cacheIdxToFilepath low none
    lowestIdx := some newLow }

/-- A free slot is taken; it becomes the lowest one of an empty list. -/
def takeFree (c : Cache N) (i : Fin N) : Cache N :=
  { c with freeIdxs := c.freeIdxs.erase i, lowestIdx := c.lowestIdx.or (some i) }

/-- `first` is the free slot the hash table yields first and `wd` what `inotify_add_watch` returns. -/
def tryInsertItem (c : Cache N) (filepath buff : Bytes) (first : ℕ) (wd : ℤ) :
    Option (Cache N × Bool) :=
  match cbegin c.freeIdxs first with
  | some i => some ((c.takeFree i).insertAt i filepath buff wd, true)
  | none =>
      match c.lowestIdx with
      | none => none
      | some low =>
          if (c.cacheBuffer low).lockNumber = 0 then
            match (c.cacheBuffer low).nextItemIdx with
            | none => none
            | some newLow => some ((c.evictLowest low newLow).insertAt low filepath buff wd, true)
          else some (c, false)

def inotifyEventHandler (c : Cache N) (watch : ℤ) : Cache N :=
  match c.watchToCacheIdx watch with
  | some i => c.modifyItem i fun item => { item with outdated := true }
  | none => c

def finishedWithItem (c : Cache N) (clientIdx : ℕ) (client : TcpClient) :
    Option (Cache N × TcpClient) :=
  if client.usingFile then
    match c.cacheIdxOf clientIdx with
    | none => none
    | some i =>
        let c := { c with
          clientIdxToCacheIdx := Function.update c.clientIdxToCacheIdx clientIdx (some i) }
        some (c.modifyItem i fun item => { item with lockNumber := item.lockNumber - 1 },
          { client with usingFile := false })
  else some (c, client)

/-- The links of the recency list. -/
def links (c : Cache N) : IndexList.Links (Fin N) where
  next i := (c.cacheBuffer i).nextItemIdx
  prev i := (c.cacheBuffer i).prevItemIdx
  low := c.lowestIdx
  high := c.highestIdx

end Cache

/-! ### Sequences of calls -/

/-- The calls on a cache. `tryInsert` carries what the environment contributes to it. -/
inductive CacheOp where
  | fetch (filepath : Bytes) (clientIdx : ℕ)
  | tryInsert (filepath buff : Bytes) (first : ℕ) (wd : ℤ)
  | inotify (watch : ℤ)
  | finished (clientIdx : ℕ)
  deriving DecidableEq

inductive CacheResult (N : ℕ) where
  | fetched (item : CacheFetchItem N)
  | inserted (done : Bool)
  | done
  deriving DecidableEq

/-- A cache and the clients that use it. -/
structure CacheState (N : ℕ) where
  cache : Cache N := {}
  clients : ℕ → TcpClient := fun _ => {}

variable {N : ℕ}

def cacheStep (s : CacheState N) : CacheOp → Option (CacheState N × CacheResult N)
  | .fetch filepath clientIdx =>
      (s.cache.fetchItem filepath clientIdx (s.clients clientIdx)).map fun r =>
        (⟨r.1, Function.update s.clients clientIdx r.2.1⟩, .fetched r.2.2)
  | .tryInsert filepath buff first wd =>
      (s.cache.tryInsertItem filepath buff first wd).map fun r => (⟨r.1, s.clients⟩, .inserted r.2)
  | .inotify watch => some (⟨s.cache.inotifyEventHandler watch, s.clients⟩, .done)
  | .finished clientIdx =>
      (s.cache.finishedWithItem clientIdx (s.clients clientIdx)).map fun r =>
        (⟨r.1, Function.update s.clients clientIdx r.2⟩, .done)

def cacheRun (N : ℕ) (ops : List CacheOp) : Option (CacheState N × List (CacheResult N)) :=
  Runs.exec cacheStep {} ops

end LiburingServer
