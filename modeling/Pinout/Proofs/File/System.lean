import Pinout.File.Job

/-!
# Pinout.Proofs.File.System

Jobs on any file system, not on a disk alone. All that is asked of a file system is that a write
either fails and leaves everything as it is, or puts its text in the one file that the path leads to
(`System.Replaced`). A disk is such a system (`Disk.replaced_write`), and there a job runs as it does
on the disk (`runIn_disk`).

`ReadOnly` jobs leave every file system as it is; a job that goes on with another one is read-only
if both are (`ReadOnly.bind`).
-/

namespace Pinout
namespace File

/-- What can be asked of a file system in one of its states. Files are told apart by their keys, and
several paths may lead to one file. -/
structure Volume where
  State : Type
  Key : Type
  entry? : State → Key → Option Entry
  key? : State → Path → Option Key
  read : State → Path → Except Fault Text
  isFile : State → Path → Bool
  write : State → Path → Text → Except Fault State

/-- The file at a path holds a text, which is read there, and all other files are as they were. -/
structure Volume.Replaced (v : Volume) (before after : v.State) (path : Path) (t : Text)
    (key : v.Key) : Prop where
  leads : v.key? before path = some key
  entry : v.entry? after key = some (.text t)
  others : ∀ other, other ≠ key → v.entry? after other = v.entry? before other
  read : v.read after path = .ok t

/-- A file system: a write that does not fail replaces what one file holds. -/
structure System extends Volume where
  replaced_of_write {before after : State} {path : Path} {t : Text}
    (h : write before path t = .ok after) : ∃ key, toVolume.Replaced before after path t key

namespace Job

/-- The result of a job on a file system, and the state behind it. -/
def runIn {α : Type} (fs : System) (s : fs.State) : Job α → α × fs.State
  | done a => (a, s)
  | read path next => (next (fs.read s path)).runIn fs s
  | isFile path next => (next (fs.isFile s path)).runIn fs s
  | write path t next =>
    match fs.write s path t with
    | .ok s => (next (.ok ())).runIn fs s
    | .error fault => (next (.error fault)).runIn fs s

@[simp] theorem runIn_pure {α : Type} (fs : System) (s : fs.State) (a : α) :
    (pure a : Job α).runIn fs s = (a, s) := rfl

theorem runIn_write {α : Type} (fs : System) (s : fs.State) (path : Path) (t : Text)
    (next : Except Fault Unit → Job α) : (write path t next).runIn fs s =
      match fs.write s path t with
      | .ok after => (next (.ok ())).runIn fs after
      | .error fault => (next (.error fault)).runIn fs s := by
  rw [runIn]

@[simp] theorem runIn_bind {α β : Type} (fs : System) (s : fs.State) (j : Job α) (f : α → Job β) :
    (j >>= f).runIn fs s = (f (j.runIn fs s).1).runIn fs (j.runIn fs s).2 := by
  change (j.bind f).runIn fs s = _
  induction j generalizing s with
  | done a => rfl
  | read path next ih => exact ih _ s
  | isFile path next ih => exact ih _ s
  | write path t next ih =>
    simp only [bind, runIn]
    split
    · exact ih _ _
    · exact ih _ _

/-- A job that leaves every file system as it is. -/
def ReadOnly {α : Type} (j : Job α) : Prop := ∀ (fs : System) (s : fs.State), (j.runIn fs s).2 = s

theorem ReadOnly.pure {α : Type} (a : α) : (Pure.pure a : Job α).ReadOnly := fun _ _ => rfl

theorem ReadOnly.bind {α β : Type} {j : Job α} {f : α → Job β} (hj : j.ReadOnly)
    (hf : ∀ a, (f a).ReadOnly) : (j >>= f).ReadOnly := by
  intro fs s
  rw [runIn_bind, hj fs s]
  exact hf _ fs s

/-- A job that goes on with what a read-only one gives goes on from the same state. -/
theorem ReadOnly.runIn_bind {α β : Type} {j : Job α} (hj : j.ReadOnly) (f : α → Job β)
    (fs : System) (s : fs.State) : (j >>= f).runIn fs s = (f (j.runIn fs s).1).runIn fs s := by
  rw [Job.runIn_bind, hj fs s]

end Job

/-! ## Disks -/

namespace Disk

theorem lookup?_setEntry (key other : List Text) (e : Entry) (entries : List (List Text × Entry)) :
    lookup? other (setEntry key e entries) = if other = key then some e else lookup? other entries := by
  induction entries with
  | nil =>
    simp only [setEntry, lookup?, eq_comm]
  | cons entry rest ih =>
    obtain ⟨k, old⟩ := entry
    by_cases hk : k = key
    · subst hk
      by_cases ho : k = other
      · simp [setEntry, lookup?, ho]
      · simp [setEntry, lookup?, ho, Ne.symm ho]
    · by_cases ho : k = other
      · subst ho
        simp [setEntry, lookup?, hk]
      · simp [setEntry, lookup?, hk, ho, ih]

/-- The disk with a text in the file at a key. -/
def set (d : Disk) (key : List Text) (t : Text) : Disk :=
  { d with entries := setEntry key (.text t) d.entries }

/-- The key of the file at a place, which may have to be created. -/
def Place.file? : Place → Option (List Text)
  | found key e => if e = .directory then none else some key
  | free key => some key

/-- The key of the file that a path leads to. -/
def key? (d : Disk) (path : Path) : Option (List Text) := (d.place path).toOption.bind Place.file?

variable {d : Disk} {key : List Text}

theorem entry?_set_self (hkey : key ≠ []) (t : Text) : entry? (d.set key t) key = some (.text t) := by
  rw [ entry?, if_neg hkey, set, lookup?_setEntry, if_pos rfl]

theorem entry?_set_of_ne {other : List Text} (h : other ≠ key) (t : Text) :
    entry? (d.set key t) other = d.entry? other := by
  rw [ entry?, entry?, set, lookup?_setEntry, if_neg h]

/-- Directories stay where a text is put in a file. -/
theorem entry?_set_of_directory (hkey : d.entry? key ≠ some .directory) {other : List Text}
    (h : d.entry? other = some .directory) (t : Text) :
    entry? (d.set key t) other = some .directory := by
  rw [entry?_set_of_ne ?_ t, h]
  rintro rfl
  exact hkey h

/-- Walks that lead somewhere. -/
inductive Walks (d : Disk) : List Text → List Text → Place → Prop where
  | here {start : List Text} : Walks d start [] (.found start .directory)
  | stay {start rest : List Text} {piece : Text} {place : Place} (hp : piece = [] ∨ piece = ['.'])
      (h : Walks d start rest place) : Walks d start (piece :: rest) place
  | up {start rest : List Text} {place : Place} (h : Walks d start.tail rest place) :
      Walks d start (['.', '.'] :: rest) place
  | enter {start rest : List Text} {piece : Text} {place : Place}
      (hp : ¬(piece = [] ∨ piece = ['.'])) (hu : piece ≠ ['.', '.'])
      (he : d.entry? (piece :: start) = some .directory) (h : Walks d (piece :: start) rest place) :
      Walks d start (piece :: rest) place
  | file {start : List Text} {piece : Text} {e : Entry} (hp : ¬(piece = [] ∨ piece = ['.']))
      (hu : piece ≠ ['.', '.']) (he : d.entry? (piece :: start) = some e) (hd : e ≠ .directory) :
      Walks d start [piece] (.found (piece :: start) e)
  | free {start : List Text} {piece : Text} (hp : ¬(piece = [] ∨ piece = ['.']))
      (hu : piece ≠ ['.', '.']) (he : d.entry? (piece :: start) = none) :
      Walks d start [piece] (.free (piece :: start))

theorem walks_of_walk {start pieces : List Text} {place : Place}
    (h : d.walk start pieces = .ok place) : Walks d start pieces place := by
  induction pieces generalizing start with
  | nil =>
    cases h
    exact .here
  | cons piece rest ih =>
    unfold walk at h
    by_cases hp : piece = [] ∨ piece = ['.']
    · rw [if_pos hp] at h
      exact .stay hp (ih h)
    rw [if_neg hp] at h
    by_cases hu : piece = ['.', '.']
    · subst hu
      rw [if_pos rfl] at h
      exact .up (ih h)
    rw [if_neg hu] at h
    cases he : d.entry? (piece :: start) with
    | none =>
      rw [he] at h
      cases rest with
      | nil =>
        cases h
        exact .free hp hu he
      | cons next rest =>
        dsimp only at h
        split at h <;> cases h
    | some e =>
      rw [he] at h
      by_cases hd : e = .directory
      · subst hd
        exact .enter hp hu he (ih h)
      · cases rest with
        | nil =>
          have hfound : place = .found (piece :: start) e := by
            cases e with
            | directory => exact absurd rfl hd
            | text t => exact (Except.ok.inj h).symm
            | binary => exact (Except.ok.inj h).symm
          rw [hfound]
          exact .file hp hu he hd
        | cons next rest =>
          cases e with
          | directory => exact absurd rfl hd
          | text t => cases h
          | binary => cases h

theorem walk_of_walks {start pieces : List Text} {place : Place} (h : Walks d start pieces place) :
    d.walk start pieces = .ok place := by
  induction h with
  | here => rfl
  | stay hp _ ih =>
    unfold walk
    rw [if_pos hp]
    exact ih
  | up _ ih =>
    unfold walk
    rw [if_neg (by decide), if_pos rfl]
    exact ih
  | enter hp hu he _ ih =>
    unfold walk
    rw [if_neg hp, if_neg hu, he]
    exact ih
  | @file start piece e hp hu he hd =>
    unfold walk
    rw [if_neg hp, if_neg hu, he]
    cases e with
    | directory => exact absurd rfl hd
    | text t => rfl
    | binary => rfl
  | free hp hu he =>
    unfold walk
    rw [if_neg hp, if_neg hu, he]

/-- Where a file is or can be, there is no directory. -/
theorem Walks.not_directory {start pieces : List Text} {place : Place}
    (h : Walks d start pieces place) (hk : place.file? = some key) :
    key ≠ [] ∧ d.entry? key ≠ some .directory := by
  induction h with
  | here => cases hk
  | stay _ _ ih => exact ih hk
  | up _ ih => exact ih hk
  | enter _ _ _ _ ih => exact ih hk
  | file _ _ he hd =>
    rw [Place.file?, if_neg hd] at hk
    cases hk
    refine ⟨List.cons_ne_nil _ _, fun hdir => hd ?_⟩
    rw [he] at hdir
    exact Option.some.inj hdir
  | free _ _ he =>
    cases hk
    refine ⟨List.cons_ne_nil _ _, ?_⟩
    rw [he]
    nofun

/-- A text put where a walk leads is found by the same walk: the directories on the way are still
there. -/
theorem Walks.set {start pieces : List Text} {place : Place} (h : Walks d start pieces place)
    (hk : place.file? = some key) (t : Text) :
    Walks (d.set key t) start pieces (.found key (.text t)) := by
  obtain ⟨hkey, hdirectory⟩ := h.not_directory hk
  have hself := entry?_set_self (d := d) hkey t
  induction h with
  | here => cases hk
  | stay hp _ ih => exact .stay hp (ih hk)
  | up _ ih => exact .up (ih hk)
  | enter hp hu he _ ih => exact .enter hp hu (entry?_set_of_directory hdirectory he t) (ih hk)
  | file hp hu _ hd =>
    rw [Place.file?, if_neg hd] at hk
    cases hk
    exact .file hp hu hself nofun
  | free hp hu _ =>
    cases hk
    exact .file hp hu hself nofun

theorem place_set {path : Path} {place : Place} (h : d.place path = .ok place)
    (hk : place.file? = some key) (t : Text) :
    (d.set key t).place path = .ok (.found key (.text t)) := by
  unfold Disk.place at h ⊢
  split at h
  · cases h
  · exact walk_of_walks ((walks_of_walk h).set hk t)
  · exact walk_of_walks ((walks_of_walk h).set hk t)

theorem write_eq {path : Path} {t : Text} {after : Disk} (h : d.write path t = .ok after) :
    ∃ place key, d.place path = .ok place ∧ place.file? = some key ∧ after = d.set key t := by
  unfold write at h
  split at h
  · cases h
  · next key e hne hp =>
    cases h
    exact ⟨_, key, hp, if_neg hne, rfl⟩
  · next key hp =>
    cases h
    exact ⟨_, key, hp, rfl, rfl⟩
  · cases h

/-- The questions to a disk. -/
def volume : Volume where
  State := Disk
  Key := List Text
  entry? := entry?
  key? := key?
  read := read
  isFile := isFile
  write := write

/-- Writing to a disk replaces one file. -/
theorem replaced_write {path : Path} {t : Text} {after : Disk} (h : d.write path t = .ok after) :
    ∃ key, volume.Replaced d after path t key := by
  obtain ⟨place, key, hp, hk, rfl⟩ := write_eq h
  have hleads : d.key? path = some key := by rw [key?, hp]; exact hk
  have hkey : key ≠ [] := by
    unfold Disk.place at hp
    split at hp
    · cases hp
    · exact ((walks_of_walk hp).not_directory hk).1
    · exact ((walks_of_walk hp).not_directory hk).1
  have hread : (d.set key t).read path = .ok t := by rw [read, place_set hp hk]
  exact ⟨key, hleads, entry?_set_self hkey t, fun _ ho => entry?_set_of_ne ho t, hread⟩

def system : System := { volume with replaced_of_write := replaced_write }

end Disk

/-- On a disk a job runs as `Job.run` says. -/
theorem Job.runIn_disk {α : Type} (d : Disk) (j : Job α) : j.runIn Disk.system d = j.run d := by
  induction j generalizing d with
  | done a => rfl
  | read path next ih => exact ih _ d
  | isFile path next ih => exact ih _ d
  | write path t next ih =>
    refine (runIn_write Disk.system d path t next).trans ?_
    rw [run]
    cases h : d.write path t with
    | ok after =>
      have hw : Disk.system.write d path t = .ok after := h
      rw [hw]
      exact ih _ after
    | error fault =>
      have hw : Disk.system.write d path t = .error fault := h
      rw [hw]
      exact ih _ d

end File
end Pinout
