import CellScheme.Proofs.Image.File
import CellScheme.Proofs.Image.Front

/-!
No image is the beginning of another. An image that was cut off is not read: either its envelope
ends too early, or the bytes that the header of the definitions counts have another sum.
-/

namespace CellScheme

open Pack (Takes)

namespace Envelope

theorem readEntry_takes (e : Envelope) (key : Bytes) : Takes (readEntry e key) := by
  refine .ite (Pack.readInt_takes.map fun v => { e with version := v }) (.ite
    (Pack.readUint_takes.map fun n => { e with sum := UInt64.ofNat n }) (.ite
    (Pack.readBinary_takes.map fun ds => { e with defs := ds }) ?_))
  refine Pack.skip_takes.next (fun _ => .pure e) (fun bs _ rest h => ?_) fun bs err r h => ?_
  all_goals cases hs : Pack.skip bs <;> simp_all [Except.map]

theorem readEntries_takes (e : Envelope) (n : Nat) : Takes (readEntries e n) := by
  induction n generalizing e with
  | zero => exact .pure e
  | succ n ih =>
      intro bs v rest h
      rw [readEntries] at h
      split at h
      · cases h
      · rename_i key _ hkey
        split at h
        · cases h
        · rename_i e' _ hentry
          obtain ⟨used, rfl, hu⟩ := Pack.readKey_takes hkey
          obtain ⟨used', rfl, hu'⟩ := readEntry_takes e key hentry
          obtain ⟨used'', rfl, hu''⟩ := ih e' h
          refine ⟨used ++ (used' ++ used''), by simp, fun more => ?_⟩
          simp only [List.append_assoc, readEntries, hu _, hu' _, hu'' _]

theorem read_takes : Takes read := by
  refine Pack.readMapHeader_takes.next (readEntries_takes blank) (fun bs n rest h => ?_)
    fun bs err r h => ?_
  · simp only [read, h]
  · simp [read, h]

end Envelope

namespace Machine

/-- A header tells sizes below `2 ^ 32`. Of definitions that take more bytes, those that the header
counts have to have another sum than all of them. -/
def Summed (m : Machine) : Prop :=
  let defs := packDefinitions m.definitions
  2 ^ 32 ≤ defs.length → Blake2b.hash (defs.take (defs.length % 2 ^ 32)) ≠ Blake2b.hash defs

theorem summed_of_lt {m : Machine} (h : (packDefinitions m.definitions).length < 2 ^ 32) :
    m.Summed :=
  fun hlong => absurd h (Nat.not_lt.mpr hlong)

theorem image_ne_nil (m : Machine) : m.image ≠ [] := by
  simp [image, Envelope.write, Pack.mapHeader]

theorem readImage_front {m : Machine} (h : m.Summed) {front more : Bytes}
    (himage : m.image = front ++ more) (hmore : more ≠ []) (path : String) :
    ∃ e, readImage path front = .error e := by
  cases hf : Envelope.read front with
  | error e => exact ⟨_, by simp only [readImage, hf]; rfl⟩
  | ok p =>
      -- the whole image is read as the same envelope, and leaves the bytes that were cut off
      have hwhole := Envelope.read_takes.append hf more
      rw [← himage] at hwhole
      have hread := Envelope.read_front ⟨imageVersion, Blake2b.hash (packDefinitions m.definitions),
        packDefinitions m.definitions⟩ []
      rw [List.append_nil, List.append_nil] at hread
      obtain ⟨he, hrest⟩ := Prod.mk.inj (Except.ok.inj (hwhole.symm.trans hread))
      have hlong : 2 ^ 32 ≤ (packDefinitions m.definitions).length := by
        by_contra hshort
        rw [Nat.mod_eq_of_lt (Nat.lt_of_not_le hshort), List.drop_length] at hrest
        exact hmore (List.append_eq_nil_iff.mp hrest).2
      refine ⟨.checksum path p.1.sum (Blake2b.hash p.1.defs), ?_⟩
      have hsum : Blake2b.hash p.1.defs ≠ p.1.sum := he ▸ h hlong
      have hversion : p.1.version = imageVersion := by rw [he]
      simp only [readImage, hf, hversion, ne_eq, not_true_eq_false, if_false, if_pos hsum]

/-- An image that was cut off loads into no machine. -/
theorem load_front {m : Machine} (h : m.Summed) {front more : Bytes}
    (himage : m.image = front ++ more) (hmore : more ≠ []) (other : Machine) {d : Directory}
    {path : String} (hread : d.read path = .ok front) :
    ∃ e, other.load d path = .error e := by
  obtain ⟨e, he⟩ := readImage_front h himage hmore path
  cases hfile : d.hasFile path with
  | false => exact ⟨.absent path, by simp [load, hfile]⟩
  | true => exact ⟨e, load_eq_error hfile hread he⟩

end Machine

end CellScheme
