import Mathlib.Data.List.Basic

/-!
# A readers–writer lock

The lock as the identities of its holders: the threads holding it for reading and the one holding
it for writing. `WF` is mutual exclusion, which every operation keeps; `not_writing` is what a
reader knows, `not_reading` what the writer knows.
-/

/-- A readers–writer lock: who holds it. -/
structure RwLock (ι : Type _) where
  readers : List ι
  writer : Option ι
deriving DecidableEq, Repr

namespace RwLock

variable {ι : Type _}

def free : RwLock ι := ⟨[], none⟩

/-- `RLock`; `none` while a writer holds the lock. -/
def rlock (l : RwLock ι) (t : ι) : Option (RwLock ι) :=
  if l.writer.isNone then some { l with readers := t :: l.readers } else none

def runlock [DecidableEq ι] (l : RwLock ι) (t : ι) : RwLock ι :=
  { l with readers := l.readers.erase t }

/-- `Lock`; `none` while anyone holds the lock. -/
def lock (l : RwLock ι) (t : ι) : Option (RwLock ι) :=
  if l.writer.isNone && l.readers.isEmpty then some { l with writer := some t } else none

def unlock (l : RwLock ι) : RwLock ι := { l with writer := none }

/-- Mutual exclusion: no reader while there is a writer. -/
def WF (l : RwLock ι) : Prop := l.writer.isSome → l.readers = []

theorem WF.free : WF (free : RwLock ι) := fun _ => rfl

theorem WF.rlock {l l' : RwLock ι} {t : ι} (h : l.rlock t = some l') : WF l' := by
  unfold RwLock.rlock at h
  split at h
  · cases h
    rename_i hw
    intro hs
    simp only [Option.isNone_iff_eq_none] at hw
    simp [hw] at hs
  · cases h

theorem WF.runlock [DecidableEq ι] {l : RwLock ι} (h : WF l) (t : ι) : WF (l.runlock t) := by
  intro hs
  simp only [RwLock.runlock, h hs, List.erase_nil]

theorem WF.lock {l l' : RwLock ι} {t : ι} (h : l.lock t = some l') : WF l' := by
  unfold RwLock.lock at h
  split at h
  · cases h
    rename_i hw
    simp only [Bool.and_eq_true, List.isEmpty_iff] at hw
    exact fun _ => hw.2
  · cases h

theorem WF.unlock (l : RwLock ι) : WF l.unlock := fun hs => by simp [RwLock.unlock] at hs

theorem WF.not_writing {l : RwLock ι} (h : WF l) {t : ι} (ht : t ∈ l.readers) :
    l.writer = none := by
  cases hw : l.writer with
  | none => rfl
  | some w => rw [h (by simp [hw])] at ht; cases ht

theorem WF.not_reading {l : RwLock ι} (h : WF l) {w : ι} (hw : l.writer = some w) (t : ι) :
    t ∉ l.readers := by
  rw [h (by simp [hw])]
  exact List.not_mem_nil

theorem rlock_readers {l l' : RwLock ι} {t : ι} (h : l.rlock t = some l') :
    l'.readers = t :: l.readers ∧ l'.writer = l.writer ∧ l.writer = none := by
  unfold rlock at h
  split at h
  · rename_i hw
    cases h
    exact ⟨rfl, rfl, Option.isNone_iff_eq_none.1 hw⟩
  · cases h

theorem lock_writer {l l' : RwLock ι} {t : ι} (h : l.lock t = some l') :
    l'.writer = some t ∧ l'.readers = l.readers ∧ l.writer = none ∧ l.readers = [] := by
  unfold lock at h
  split at h
  · cases h
    rename_i hw
    simp only [Bool.and_eq_true, List.isEmpty_iff, Option.isNone_iff_eq_none] at hw
    exact ⟨rfl, rfl, hw.1, hw.2⟩
  · cases h

theorem mem_runlock [DecidableEq ι] {l : RwLock ι} {t t' : ι} (h : t' ∈ l.readers) (hne : t' ≠ t) :
    t' ∈ (l.runlock t).readers :=
  (List.mem_erase_of_ne hne).2 h

/-! ## What another thread's operation leaves -/

/-- One operation of thread `t` on the lock; only the writer unlocks. -/
inductive Step [DecidableEq ι] (t : ι) (l : RwLock ι) : RwLock ι → Prop
  | none : Step t l l
  | rlock {l' : RwLock ι} : l.rlock t = some l' → Step t l l'
  | runlock : Step t l (l.runlock t)
  | lock {l' : RwLock ι} : l.lock t = some l' → Step t l l'
  | unlock : l.writer = some t → Step t l l.unlock

variable [DecidableEq ι] {t u : ι} {l l' : RwLock ι}

theorem Step.wf (h : Step t l l') (hl : WF l) : WF l' := by
  cases h with
  | none => exact hl
  | rlock h => exact .rlock h
  | runlock => exact hl.runlock t
  | lock h => exact .lock h
  | unlock _ => exact .unlock l

theorem Step.readers (h : Step t l l') (hne : u ≠ t) (hu : u ∈ l.readers) : u ∈ l'.readers := by
  cases h with
  | none => exact hu
  | rlock h => rw [(rlock_readers h).1]; exact List.mem_cons_of_mem _ hu
  | runlock => exact mem_runlock hu hne
  | lock h => rw [(lock_writer h).2.1]; exact hu
  | unlock _ => exact hu

theorem Step.writer (h : Step t l l') (hne : u ≠ t) (hu : l.writer = some u) :
    l'.writer = some u := by
  cases h with
  | none => exact hu
  | rlock h => rw [(rlock_readers h).2.1]; exact hu
  | runlock => exact hu
  | lock h => rw [(lock_writer h).2.2.1] at hu; cases hu
  | unlock h => rw [h] at hu; exact absurd (Option.some.inj hu).symm hne

end RwLock
