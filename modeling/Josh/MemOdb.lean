import Mathlib

/-! `MemOdb` of `josh-memodb` and its `Flusher`: the objects a run writes are buffered in memory
with a running total of their sizes, and packed to disk by one worker thread that takes its jobs
in order. `pack_to_disk` snapshots the buffer under the lock, writes the pack outside it and
then evicts what it snapshotted, so writes land between its phases. An object is its own oid
(content addressing), so writing it again changes nothing. -/

namespace Josh.MemOdb

/-- `Inner`: the buffered objects, the keys of the `BTreeMap`, and the total of their sizes. -/
structure Inner (α : Type) where
  map : List α
  size : Nat
  deriving DecidableEq, Repr

/-- A job of the flusher. `owed` is ghost state: the objects written before the `flush` call
that sent the drain. -/
inductive Job (α : Type) where
  | chunk
  | drain (owed : List α)
  deriving DecidableEq, Repr

/-- The flusher thread: waiting for a job, or inside `pack_to_disk` with its snapshot, while
`write_snapshot` runs or after it returned, before the eviction. -/
inductive Worker (α : Type) where
  | idle
  | packing (job : Job α) (snapshot : List α)
  | evicting (job : Job α) (snapshot : List α)
  deriving DecidableEq, Repr

/-- The fields of a `MemOdb` that change. -/
structure Store (α : Type) where
  inner : Inner α
  chunkInFlight : Bool
  deriving DecidableEq, Repr

/-- A store with the flusher's channel and thread, and the objects on disk. `written` is ghost
state, every object written in order; `acks` are the results the drains sent back. -/
structure Flushing (α : Type) where
  store : Store α
  queue : List (Job α)
  worker : Worker α
  disk : List α
  written : List α
  acks : List (List α × Bool)
  deriving DecidableEq, Repr

/-- A fresh store, an idle flusher and the objects already on disk. -/
def Flushing.start {α : Type} (disk : List α) : Flushing α :=
  ⟨⟨⟨[], 0⟩, false⟩, [], .idle, disk, [], []⟩

/-- What can happen next: a `write`, `pack_in_background` or `flush` on the store, or the
flusher receiving a job and snapshotting, `write_snapshot` returning, or the eviction. -/
inductive Action (α : Type) where
  | write (o : α)
  | packInBackground
  | flush
  | receive
  | writeSnapshot (ok : Bool)
  | evict
  deriving DecidableEq, Repr

/-- What a job owes: a drain the objects written before its `flush` call. -/
def Job.owed {α : Type} : Job α → List α
  | .chunk => []
  | .drain owed => owed

section Store

variable {α : Type} [DecidableEq α] (len : α → Nat) (limit : Option Nat)

/-- `insert`: buffer an object and say whether the store now exceeds its limit. A duplicate
adds nothing and never reports overflow. -/
def Inner.insert (inner : Inner α) (o : α) : Inner α × Bool :=
  if o ∈ inner.map then (inner, false)
  else
    let size := inner.size + len o
    (⟨inner.map ++ [o], size⟩, limit.any (size > ·))

/-- The eviction of `pack_to_disk`: each snapshotted object still buffered leaves the map, and
its size the total (`saturating_sub`). -/
def Inner.evict (inner : Inner α) (snapshot : List α) : Inner α :=
  snapshot.foldl (fun inner o =>
    if o ∈ inner.map then ⟨inner.map.erase o, inner.size - len o⟩ else inner) inner

/-- `enqueue_chunk`: queue one chunk unless one is in flight. -/
def enqueueChunk (s : Flushing α) : Flushing α :=
  if s.store.chunkInFlight then s
  else { s with store := { s.store with chunkInFlight := true }, queue := s.queue ++ [.chunk] }

/-- `write`: buffer the object, and queue a chunk when the store overflows. -/
def write (s : Flushing α) (o : α) : Flushing α :=
  let (inner, overflow) := s.store.inner.insert len limit o
  let s := { s with store := { s.store with inner := inner }, written := s.written ++ [o] }
  if overflow then enqueueChunk s else s

/-- The end of a job: a chunk clears `chunk_in_flight` whatever `pack_to_disk` returned, a drain
sends its result back. -/
def finish (s : Flushing α) : Job α → Bool → Flushing α
  | .chunk, _ => { s with worker := .idle, store := { s.store with chunkInFlight := false } }
  | .drain owed, ok => { s with worker := .idle, acks := s.acks ++ [(owed, ok)] }

/-- One step of the store or of the flusher, `none` where it cannot happen. Receiving a job and
taking the snapshot are one step: no write can tell them apart. -/
def step (s : Flushing α) : Action α → Option (Flushing α)
  | .write o => some (write len limit s o)
  | .packInBackground => some (enqueueChunk s)
  | .flush => some { s with queue := s.queue ++ [.drain s.written] }
  | .receive =>
    match s.worker, s.queue with
    | .idle, job :: rest =>
      if s.store.inner.map = [] then some (finish { s with queue := rest } job true)
      else some { s with queue := rest, worker := .packing job s.store.inner.map }
    | _, _ => none
  | .writeSnapshot ok =>
    match s.worker with
    | .packing job snapshot =>
      if ok then
        some { s with worker := .evicting job snapshot,
                      disk := s.disk ++ snapshot.filter (· ∉ s.disk) }
      else some (finish s job false)
    | _ => none
  | .evict =>
    match s.worker with
    | .evicting job snapshot =>
      some (finish { s with store := { s.store with inner := s.store.inner.evict len snapshot } }
        job true)
    | _ => none

/-- A run of steps, `none` if one of them cannot happen. -/
def run (s : Flushing α) : List (Action α) → Option (Flushing α)
  | [] => some s
  | a :: as => (step len limit s a).bind fun s => run s as

end Store

/-! ### The invariant -/

section Invariant

variable {α : Type} [DecidableEq α] (len : α → Nat) (limit : Option Nat)

/-- The map holds each object once, and the total is the sum of their sizes. -/
structure Inner.Exact (inner : Inner α) : Prop where
  nodup : inner.map.Nodup
  size : inner.size = (inner.map.map len).sum

omit [DecidableEq α] in
theorem Inner.exact_empty : Inner.Exact len (⟨[], 0⟩ : Inner α) := ⟨List.nodup_nil, rfl⟩

theorem Inner.Exact.insert {inner : Inner α} (h : inner.Exact len) (o : α) :
    (inner.insert len limit o).1.Exact len := by
  unfold Inner.insert
  split
  · exact h
  · rename_i fresh
    refine ⟨List.nodup_append.mpr ⟨h.nodup, List.nodup_singleton o, ?_⟩, ?_⟩
    · intro a ha b hb same
      rw [List.mem_singleton.mp hb] at same
      exact fresh (same ▸ ha)
    · simp [h.size]

theorem Inner.mem_insert (inner : Inner α) (o : α) :
    ∀ x, x ∈ inner.map ∨ x = o → x ∈ (inner.insert len limit o).1.map := by
  intro x hx
  unfold Inner.insert
  split
  · rename_i present
    rcases hx with hx | rfl
    · exact hx
    · exact present
  · simpa using hx

theorem Inner.evict_cons (inner : Inner α) (o : α) (rest : List α) :
    inner.evict len (o :: rest) =
      (if o ∈ inner.map then ⟨inner.map.erase o, inner.size - len o⟩ else inner).evict len rest :=
  rfl

theorem Inner.Exact.evict {inner : Inner α} (h : inner.Exact len) (snapshot : List α) :
    (inner.evict len snapshot).Exact len := by
  induction snapshot generalizing inner with
  | nil => exact h
  | cons o rest ih =>
    rw [Inner.evict_cons]
    apply ih
    split
    · rename_i mem
      have total := List.sum_map_erase len mem
      refine ⟨h.nodup.erase o, ?_⟩
      show inner.size - len o = ((inner.map.erase o).map len).sum
      rw [h.size]
      omega
    · exact h

/-- An object leaves the map only if it was snapshotted. -/
theorem Inner.mem_evict {inner : Inner α} {o : α} (h : o ∈ inner.map) (snapshot : List α) :
    o ∈ (inner.evict len snapshot).map ∨ o ∈ snapshot := by
  induction snapshot generalizing inner with
  | nil => exact .inl h
  | cons x rest ih =>
    rw [Inner.evict_cons]
    by_cases same : o = x
    · exact .inr (same ▸ List.mem_cons_self)
    · have kept : o ∈ (if x ∈ inner.map then (⟨inner.map.erase x, inner.size - len x⟩ : Inner α)
          else inner).map := by
        split
        · exact (List.mem_erase_of_ne same).mpr h
        · exact h
      exact (ih kept).imp id (List.mem_cons_of_mem x)

/-- What every reachable state keeps: the total is exact, every written object is buffered or
on disk, so is what each queued drain owes, a drain being packed owes only objects of its
snapshot or on disk, a written pack holds its whole snapshot, and an acknowledged drain owed
only objects on disk. -/
structure Inv (s : Flushing α) : Prop where
  exact : s.store.inner.Exact len
  kept : ∀ o ∈ s.written, o ∈ s.store.inner.map ∨ o ∈ s.disk
  queued : ∀ job ∈ s.queue, ∀ o ∈ job.owed, o ∈ s.store.inner.map ∨ o ∈ s.disk
  packing : ∀ job snapshot, s.worker = .packing job snapshot →
    ∀ o ∈ job.owed, o ∈ snapshot ∨ o ∈ s.disk
  evicting : ∀ job snapshot, s.worker = .evicting job snapshot →
    (∀ o ∈ snapshot, o ∈ s.disk) ∧ ∀ o ∈ job.owed, o ∈ s.disk
  acked : ∀ owed, (owed, true) ∈ s.acks → ∀ o ∈ owed, o ∈ s.disk

omit [DecidableEq α] in
theorem inv_start (disk : List α) : Inv len (Flushing.start disk) where
  exact := Inner.exact_empty len
  kept := by simp [Flushing.start]
  queued := by simp [Flushing.start]
  packing := by simp [Flushing.start]
  evicting := by simp [Flushing.start]
  acked := by simp [Flushing.start]

theorem Inv.enqueueChunk {s : Flushing α} (h : Inv len s) : Inv len (enqueueChunk s) := by
  unfold MemOdb.enqueueChunk
  split
  · exact h
  · refine { h with queued := fun job mem o ho => ?_ }
    rcases List.mem_append.mp mem with mem | last
    · exact h.queued job mem o ho
    · rw [List.mem_singleton.mp last] at ho
      cases ho

theorem Inv.write {s : Flushing α} (h : Inv len s) (o : α) : Inv len (write len limit s o) := by
  have grown := Inner.mem_insert len limit s.store.inner o
  have buffered : Inv len { s with store := { s.store with inner := (s.store.inner.insert len limit o).1 }
                                   written := s.written ++ [o] } := by
    refine { h with exact := h.exact.insert len limit o, kept := ?_, queued := ?_ }
    · intro x hx
      rcases List.mem_append.mp hx with hx | hx
      · exact (h.kept x hx).imp_left fun mem => grown x (.inl mem)
      · exact .inl (grown x (.inr (List.mem_singleton.mp hx)))
    · exact fun job mem x hx => (h.queued job mem x hx).imp_left fun mem => grown x (.inl mem)
  unfold MemOdb.write
  split
  next inner overflow same =>
    rw [same] at buffered
    split
    · exact buffered.enqueueChunk len
    · exact buffered

theorem Inv.flush {s : Flushing α} (h : Inv len s) :
    Inv len { s with queue := s.queue ++ [.drain s.written] } := by
  refine { h with queued := fun job mem o ho => ?_ }
  rcases List.mem_append.mp mem with mem | last
  · exact h.queued job mem o ho
  · rw [List.mem_singleton.mp last] at ho
    exact h.kept o ho

theorem Inv.finish {s : Flushing α} (h : Inv len s) (job : Job α) (ok : Bool)
    (owed : ok = true → ∀ o ∈ job.owed, o ∈ s.disk) : Inv len (finish s job ok) := by
  cases job with
  | chunk =>
    exact { h with packing := by simp [MemOdb.finish], evicting := by simp [MemOdb.finish] }
  | drain owed' =>
    refine { h with packing := by simp [MemOdb.finish], evicting := by simp [MemOdb.finish],
                    acked := fun w mem o ho => ?_ }
    rcases List.mem_append.mp mem with mem | same
    · exact h.acked w mem o ho
    · obtain ⟨rfl, rfl⟩ := Prod.mk.inj (List.mem_singleton.mp same)
      exact owed rfl o ho

theorem Inv.receive {s s' : Flushing α} (h : Inv len s) (stepped : step len limit s .receive = some s') :
    Inv len s' := by
  simp only [step] at stepped
  split at stepped
  next job rest idle queue =>
    have head : ∀ o ∈ job.owed, o ∈ s.store.inner.map ∨ o ∈ s.disk :=
      h.queued job (by simp [queue])
    have tail : ∀ j ∈ rest, ∀ o ∈ j.owed, o ∈ s.store.inner.map ∨ o ∈ s.disk :=
      fun j mem => h.queued j (by simp [queue, mem])
    split at stepped
    · rename_i empty
      cases stepped
      have taken : Inv len { s with queue := rest } := { h with queued := tail }
      apply taken.finish len job true
      intro _ o ho
      simpa [empty] using head o ho
    · cases stepped
      refine { h with queued := tail, packing := fun j snapshot same => ?_, evicting := by simp }
      obtain ⟨rfl, rfl⟩ := Worker.packing.inj same
      exact head
  · cases stepped

theorem Inv.writeSnapshot {s s' : Flushing α} (h : Inv len s) (ok : Bool)
    (stepped : step len limit s (.writeSnapshot ok) = some s') : Inv len s' := by
  simp only [step] at stepped
  split at stepped
  next job snapshot packing =>
    have owes := h.packing job snapshot packing
    split at stepped
    · cases stepped
      have onDisk : ∀ o, o ∈ snapshot ∨ o ∈ s.disk → o ∈ s.disk ++ snapshot.filter (· ∉ s.disk) := by
        intro o ho
        by_cases there : o ∈ s.disk
        · exact List.mem_append_left _ there
        · exact List.mem_append_right _ (List.mem_filter.mpr ⟨ho.resolve_right there, by simpa using there⟩)
      refine ⟨h.exact, fun o ho => (h.kept o ho).imp_right (onDisk o ∘ .inr),
        fun j mem o ho => (h.queued j mem o ho).imp_right (onDisk o ∘ .inr), by simp, ?_,
        fun w mem o ho => onDisk o (.inr (h.acked w mem o ho))⟩
      intro j snap same
      obtain ⟨rfl, rfl⟩ := Worker.evicting.inj same
      exact ⟨fun o ho => onDisk o (.inl ho), fun o ho => onDisk o (owes o ho)⟩
    · cases stepped
      exact h.finish len job false (by simp)
  all_goals cases stepped

theorem Inv.evict {s s' : Flushing α} (h : Inv len s) (stepped : step len limit s .evict = some s') :
    Inv len s' := by
  simp only [step] at stepped
  split at stepped
  next job snapshot evicting =>
    cases stepped
    obtain ⟨packed, owes⟩ := h.evicting job snapshot evicting
    have gone := fun o (mem : o ∈ s.store.inner.map) => Inner.mem_evict len mem snapshot
    -- what leaves the map was snapshotted, and the snapshot is on disk
    have evicted : Inv len { s with store := { s.store with inner := s.store.inner.evict len snapshot } } := by
      refine { h with exact := h.exact.evict len snapshot
                      kept := fun o ho => ?_
                      queued := fun j mem o ho => ?_ }
      · rcases h.kept o ho with mem | disk
        · exact (gone o mem).imp_right (packed o)
        · exact .inr disk
      · rcases h.queued j mem o ho with mem | disk
        · exact (gone o mem).imp_right (packed o)
        · exact .inr disk
    exact evicted.finish len job true fun _ => owes
  all_goals cases stepped

theorem Inv.step {s s' : Flushing α} (h : Inv len s) (a : Action α)
    (stepped : step len limit s a = some s') : Inv len s' := by
  cases a with
  | write o => cases stepped; exact h.write len limit o
  | packInBackground => cases stepped; exact h.enqueueChunk len
  | flush => cases stepped; exact h.flush len
  | receive => exact h.receive len limit stepped
  | writeSnapshot ok => exact h.writeSnapshot len limit ok stepped
  | evict => exact h.evict len limit stepped

theorem Inv.run {s : Flushing α} (h : Inv len s) :
    ∀ (actions : List (Action α)) {s' : Flushing α}, run len limit s actions = some s' → Inv len s'
  | [], _, ran => by cases ran; exact h
  | a :: as, _, ran => by
    simp only [MemOdb.run, Option.bind_eq_some_iff] at ran
    obtain ⟨mid, stepped, rest⟩ := ran
    exact (h.step len limit a stepped).run as rest

end Invariant

section Claims

variable {α : Type} [DecidableEq α] (len : α → Nat) (limit : Option Nat)

/-- Over every interleaving of writes with the phases of the flusher's jobs, the total of the
store is the sum of the sizes of its objects, every object written is buffered or on disk, and a
`flush` that returned `Ok` left on disk every object written before it was called. -/
theorem mem_odb_keeps_written_objects (disk : List α) (actions : List (Action α))
    {s : Flushing α} (ran : run len limit (Flushing.start disk) actions = some s) :
    s.store.inner.size = (s.store.inner.map.map len).sum ∧
      (∀ o ∈ s.written, o ∈ s.store.inner.map ∨ o ∈ s.disk) ∧
      ∀ owed, (owed, true) ∈ s.acks → ∀ o ∈ owed, o ∈ s.disk := by
  have h := (inv_start len disk).run len limit actions ran
  exact ⟨h.exact.size, h.kept, h.acked⟩

end Claims

/-- An overflow chunk snapshots two objects, a third is written while it packs, and the drain
behind it packs the third. -/
theorem mem_odb_keeps_chunked_objects :
    let s : Flushing Nat := ⟨⟨⟨[], 0⟩, false⟩, [], .idle, [2, 3, 4], [2, 3, 4], [([2, 3], true)]⟩
    run id (some 1) (Flushing.start []) [.write 2, .write 3, .flush, .receive, .write 4,
        .writeSnapshot true, .evict, .receive, .writeSnapshot true, .evict] = some s ∧
      s.store.inner.size = (s.store.inner.map.map id).sum ∧
      (∀ o ∈ s.written, o ∈ s.store.inner.map ∨ o ∈ s.disk) ∧
      ∀ owed, (owed, true) ∈ s.acks → ∀ o ∈ owed, o ∈ s.disk := by
  intro s
  have ran : run id (some 1) (Flushing.start []) [.write 2, .write 3, .flush, .receive, .write 4,
      .writeSnapshot true, .evict, .receive, .writeSnapshot true, .evict] = some s := by decide
  exact ⟨ran, mem_odb_keeps_written_objects id (some 1) [] _ ran⟩

end Josh.MemOdb
