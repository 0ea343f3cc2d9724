import CellScheme.Image.File
import CellScheme.Proofs.Image.Definitions

/-!
A file that was written is read back, and an image of definitions is read back as the definitions.
-/

namespace CellScheme

open Pack (Reads)

namespace Directory

variable {d d' : Directory} {path : String} {content : Bytes} {way here : List String}

/-- The directory with a file at the end of a way. -/
def withFile (d : Directory) (way : List String) (content : Bytes) : Directory :=
  ⟨d.entries.insert (key way) (.file content)⟩

theorem stem_eq_steps (h : (steps path).getLast? ≠ some "") : stem path = steps path := by
  rw [stem]
  rw [← List.head?_reverse] at h
  cases hr : (steps path).reverse with
  | nil => simpa using hr.symm
  | cons s ss =>
      have hs : s ≠ "" := by simpa [hr] using h
      rw [List.dropWhile_cons_of_neg (by simpa using hs), ← hr, List.reverse_reverse]

theorem write_eq_ok (h : d.write path content = .ok d') :
    ∃ way, d.locate path = .ok way ∧ d.entryAt? way ≠ some .directory ∧
      d' = d.withFile way content := by
  unfold write at h
  split at h
  · cases h
  · rename_i way hway
    split at h
    · cases h
    · rename_i hdir
      rw [not_or] at hdir
      rw [stem_eq_steps hdir.1] at hway
      exact ⟨way, hway, hdir.2, (Except.ok.inj h).symm⟩

/-- Directories stay where they are. -/
theorem entryAt?_withFile (hw : d.entryAt? way ≠ some .directory)
    (h : d.entryAt? here = some .directory) :
    (d.withFile way content).entryAt? here = some .directory := by
  unfold entryAt? at h hw ⊢
  split
  · rfl
  · rename_i hnames
    rw [if_neg hnames] at h
    have hkey : Name.ofString (key here) ≠ Name.ofString (key way) := by
      intro heq
      split at hw
      · exact hw rfl
      · exact hw (heq ▸ h)
    rw [withFile, Named.find?_insert, if_neg hkey, h]

theorem entryAt?_withFile_self (hw : d.entryAt? way ≠ some .directory) :
    (d.withFile way content).entryAt? way = some (.file content) := by
  unfold entryAt? at hw ⊢
  split at hw
  · exact absurd rfl hw
  · rename_i hnames
    rw [if_neg hnames, withFile, Named.find?_insert_self]

theorem walk_withFile (hw : d.entryAt? way ≠ some .directory) {ss : List String}
    {target : List String} (h : d.walk path here ss = .ok target) :
    (d.withFile way content).walk path here ss = .ok target := by
  induction ss generalizing here with
  | nil => exact h
  | cons s ss ih =>
      rw [walk] at h ⊢
      split at h
      · rename_i hdir
        rw [entryAt?_withFile hw hdir]
        simp only
        split at h
        · cases h
        · rename_i hlen
          rw [if_neg hlen]
          exact ih h
      · cases h
      · cases h

/-- The file is found at the end of its path and has the bytes that were written. -/
theorem read_write (h : d.write path content = .ok d') :
    d'.hasFile path = true ∧ d'.read path = .ok content := by
  obtain ⟨way, hway, hdir, rfl⟩ := write_eq_ok h
  have hlocate : (d.withFile way content).locate path = .ok way := by
    unfold locate follow at hway ⊢
    split_ifs at hway ⊢
    exact walk_withFile hdir hway
  have hentry : (d.withFile way content).entryAt? way = some (.file content) :=
    entryAt?_withFile_self hdir
  constructor
  · simp only [hasFile, find?, hlocate, hentry]
  · simp only [read, hlocate, hentry]

end Directory

/-- The envelope is read with those of the bytes of the definitions that their header counts. -/
theorem Envelope.read_front (e : Envelope) (rest : Bytes) :
    read (e.write ++ rest) = .ok ({ e with defs := e.defs.take (e.defs.length % 2 ^ 32) },
      e.defs.drop (e.defs.length % 2 ^ 32) ++ rest) := by
  have hmap := (Pack.mapHeader_spelling (by omega : 3 < 2 ^ 32)).reads
  have hversion := Pack.readKey_reads (by decide : versionKey.length < 2 ^ 32)
  have hsum := Pack.readKey_reads (by decide : sumKey.length < 2 ^ 32)
  have hdefs := Pack.readKey_reads (by decide : defsKey.length < 2 ^ 32)
  have hkeys : sumKey ≠ versionKey ∧ defsKey ≠ versionKey ∧ defsKey ≠ sumKey := by decide
  simp only [write, List.append_assoc, read, hmap _, readEntries, hversion _, hsum _, hdefs _,
    readEntry, if_true, if_neg hkeys.1, if_neg hkeys.2.1, if_neg hkeys.2.2, Except.map,
    Pack.readInt_reads e.version _, Pack.readUint_reads e.sum.toNat_lt _,
    Pack.readBinary_front, UInt64.ofNat_toNat]

theorem Envelope.read_reads {e : Envelope} (h : e.defs.length < 2 ^ 32) :
    Reads Envelope.read e.write e := by
  intro rest
  rw [read_front, Nat.mod_eq_of_lt h, List.take_length, List.drop_length, List.nil_append]

namespace Machine

theorem readImage_eq {m : Machine} (hl : (packDefinitions m.definitions).length < 2 ^ 32)
    (path : String) : readImage path m.image =
      ((unpackDefinitions (packDefinitions m.definitions)).map Prod.fst).mapError
        (.corrupt path) := by
  have henvelope := Envelope.read_reads (e := ⟨imageVersion,
    Blake2b.hash (packDefinitions m.definitions), packDefinitions m.definitions⟩) hl []
  rw [List.append_nil] at henvelope
  simp only [readImage, image, henvelope, ne_eq, not_true_eq_false, if_false]
  cases unpackDefinitions (packDefinitions m.definitions) <;> rfl

theorem readImage_image {m : Machine} {defs : List (Name × Datum)}
    (hm : m.definitions = defs.map fun p => (p.1, some p.2)) (h : ∀ p ∈ defs, p.2.Bounded)
    (hl : (packDefinitions m.definitions).length < 2 ^ 32) (path : String) :
    readImage path m.image = .ok defs := by
  have hdefs := unpackDefinitions_reads h (hm ▸ hl) []
  rw [List.append_nil, ← hm] at hdefs
  rw [readImage_eq hl, hdefs]
  rfl

theorem readImage_absent {m : Machine}
    (h : ∀ p ∈ m.definitions, ∀ d, p.2 = some d → d.Bounded)
    (hnone : ∃ p ∈ m.definitions, p.2 = none)
    (hl : (packDefinitions m.definitions).length < 2 ^ 32) (path : String) :
    readImage path m.image = .error (.corrupt path (.pack (.wrongForm .nil .array))) := by
  rw [readImage_eq hl, unpackDefinitions_absent h hnone hl]
  rfl

theorem readImage_bounded {path : String} {bs : Bytes} {defs : List (Name × Datum)}
    (h : readImage path bs = .ok defs) : ∀ p ∈ defs, p.2.Bounded := by
  unfold readImage at h
  split at h
  · cases h
  · split_ifs at h
    split at h
    · cases h
    · rename_i hdefs
      obtain rfl := Except.ok.inj h
      exact unpackDefinitions_bounded hdefs

/-- Loading succeeds if there is a file and its image is whole, and then defines what is in it. -/
theorem load_eq_ok {m m' : Machine} {d : Directory} {path : String} :
    m.load d path = .ok m' ↔ d.hasFile path = true ∧ ∃ bs defs, d.read path = .ok bs ∧
      readImage path bs = .ok defs ∧
        m' = defs.foldl (fun m (name, x) => m.defineDatum name x) m := by
  unfold load
  cases d.hasFile path with
  | false => simp
  | true =>
      cases d.read path with
      | error e => simp
      | ok bs =>
          cases hr : readImage path bs with
          | error e => simp [hr, Except.map]
          | ok defs => simp [hr, Except.map, eq_comm]

theorem load_eq_error {m : Machine} {d : Directory} {path : String} {bs : Bytes} {e : ImageFailure}
    (hfile : d.hasFile path = true) (hread : d.read path = .ok bs)
    (h : readImage path bs = .error e) : m.load d path = .error e := by
  simp only [load, hfile, hread, h, Bool.not_true, Bool.false_eq_true, if_false, Except.map]

end Machine

end CellScheme
