import CellScheme.Proofs.Image.File
import CellScheme.Proofs.Image.Front

/-!
The fields of an envelope. They may come in any order and among others, each of which is skipped as
one whole value; what is read is the envelope and the bytes after it. A written envelope is no
longer than the room made for it.
-/

namespace CellScheme

namespace Pack

/-- The bytes of one value, with all the values inside it. -/
inductive Value : Bytes → Prop where
  | fixed {lead : UInt8} {body : Bytes} :
      Layout.ofLead lead = .fixed body.length → Value (lead :: body)
  | sized {lead : UInt8} {width extra n : Nat} {body : Bytes} :
      Layout.ofLead lead = .sized width extra → n < 256 ^ width → body.length = n + extra →
        Value (lead :: (Bytes.bigEndian width n ++ body))
  | values {lead : UInt8} {vs : List Bytes} :
      Layout.ofLead lead = .values vs.length → (∀ v ∈ vs, Value v) →
        Value (lead :: vs.flatten)
  | sizedValues {lead : UInt8} {width factor n : Nat} {vs : List Bytes} :
      Layout.ofLead lead = .sizedValues width factor → n < 256 ^ width →
      vs.length = factor * n → (∀ v ∈ vs, Value v) →
        Value (lead :: (Bytes.bigEndian width n ++ vs.flatten))

theorem Skips.of_head {head bs : Bytes} {inside u : Nat} (h : Reads skipHead head inside)
    (h' : Skips inside bs u) : Skips 1 (head ++ bs) u := by
  intro more rest
  rw [List.append_assoc, Nat.add_comm 1, skipMany_succ (h _), h']

theorem Skips.flatten {vs : List Bytes} (h : ∀ v ∈ vs, Skips 1 v 0) :
    Skips vs.length vs.flatten 0 := by
  have hall := @Skips.flatMap _ vs id (fun _ => 0) h
  simpa using hall

theorem Skips.none : Skips 0 [] 0 := fun _ _ => rfl

theorem Value.skips {v : Bytes} (h : Value v) : Skips 1 v 0 := by
  induction h with
  | @fixed lead body hl =>
      have head : Reads skipHead (lead :: body) 0 := by
        intro rest
        simp only [List.cons_append, skipHead, hl, take_reads body rest, Except.map]
      simpa using Skips.of_head head .none
  | @sized lead width extra n body hl hn hlen =>
      have head : Reads skipHead (lead :: (Bytes.bigEndian width n ++ body)) 0 := by
        intro rest
        simp only [List.cons_append, List.append_assoc, skipHead, hl, number_reads hn _, ← hlen,
          take_reads body rest, Except.map]
      simpa using Skips.of_head head .none
  | @values lead vs hl _ ih =>
      have head : Reads skipHead [lead] vs.length := by
        intro rest
        simp only [List.singleton_append, skipHead, hl]
      exact Skips.of_head head (.flatten ih)
  | @sizedValues lead width factor n vs hl hn hlen _ ih =>
      have head : Reads skipHead (lead :: Bytes.bigEndian width n) vs.length := by
        intro rest
        simp only [List.cons_append, skipHead, hl, number_reads hn _, Except.map, hlen]
      simpa using Skips.of_head head (.flatten ih)

theorem Value.skip {v : Bytes} (h : Value v) (rest : Bytes) :
    Pack.skip (v ++ rest) = .ok rest :=
  (h.skips.skip_iff rest).mpr rfl

theorem length_int_le (i : Int) : (int i).length ≤ 9 := by
  unfold int
  split_ifs <;> simp

theorem length_uint_le (n : Nat) : (uint n).length ≤ 9 := by
  unfold uint
  split_ifs <;> simp

theorem length_binary_le (bs : Bytes) : (binary bs).length ≤ 5 + bs.length := by
  unfold binary binaryHeader
  split_ifs <;> simp only [List.length_append, List.length_cons, Bytes.length_bigEndian] <;> omega

end Pack

open Pack (StringOf MapHeaderOf Value)

namespace Envelope

/-- What an entry of the map is for. -/
inductive Slot where
  | version
  | sum
  | defs
  | other
deriving DecidableEq

/-- The bytes are those of an entry of the map: a key, in any spelling, and behind it the part of
the envelope that it names, or any value if it names none. -/
inductive Field (e : Envelope) : Slot → Bytes → Prop where
  | version {key : Bytes} : StringOf versionKey key →
      Field e .version (key ++ Pack.int e.version.toInt)
  | sum {key : Bytes} : StringOf sumKey key → Field e .sum (key ++ Pack.uint e.sum.toNat)
  | defs {key : Bytes} : StringOf defsKey key → Field e .defs (key ++ Pack.binary e.defs)
  | other {name key value : Bytes} : StringOf name key → name ≠ versionKey → name ≠ sumKey →
      name ≠ defsKey → Value value → Field e .other (key ++ value)

/-- The envelope read so far, after an entry of this kind. -/
def fill (e : Envelope) (a : Envelope) : Slot → Envelope
  | .version => { a with version := e.version }
  | .sum => { a with sum := e.sum }
  | .defs => { a with defs := e.defs }
  | .other => a

variable {e : Envelope}

theorem Field.reads {s : Slot} {bs : Bytes} (h : Field e s bs) (hl : e.defs.length < 2 ^ 32)
    (a : Envelope) (n : Nat) (rest : Bytes) :
    readEntries a (n + 1) (bs ++ rest) = readEntries (e.fill a s) n rest := by
  have hkeys : sumKey ≠ versionKey ∧ defsKey ≠ versionKey ∧ defsKey ≠ sumKey := by decide
  rw [readEntries]
  cases h with
  | version hk =>
      simp only [List.append_assoc, hk.readKey _, readEntry, if_true,
        Pack.readInt_reads e.version _, Except.map, fill]
  | sum hk =>
      simp only [List.append_assoc, hk.readKey _, readEntry, if_neg hkeys.1, if_true,
        Pack.readUint_reads e.sum.toNat_lt _, Except.map, UInt64.ofNat_toNat, fill]
  | defs hk =>
      simp only [List.append_assoc, hk.readKey _, readEntry, if_neg hkeys.2.1, if_neg hkeys.2.2,
        if_true, Pack.readBinary_reads hl _, Except.map, fill]
  | other hk hv hs hd value =>
      simp only [List.append_assoc, hk.readKey _, readEntry, if_neg hv, if_neg hs, if_neg hd,
        value.skip rest, Except.map, fill]

theorem readEntries_fields {fields : List (Slot × Bytes)} (h : ∀ f ∈ fields, Field e f.1 f.2)
    (hl : e.defs.length < 2 ^ 32) (a : Envelope) (rest : Bytes) :
    readEntries a fields.length (fields.flatMap Prod.snd ++ rest) =
      .ok ((fields.map Prod.fst).foldl e.fill a, rest) := by
  induction fields generalizing a with
  | nil => rfl
  | cons f fields ih =>
      rw [List.forall_mem_cons] at h
      rw [List.length_cons, List.flatMap_cons, List.append_assoc, h.1.reads hl, ih h.2]
      rfl

theorem foldl_fill (slots : List Slot) (a : Envelope) :
    ((a.version = e.version ∨ .version ∈ slots) → (slots.foldl e.fill a).version = e.version) ∧
      ((a.sum = e.sum ∨ .sum ∈ slots) → (slots.foldl e.fill a).sum = e.sum) ∧
      ((a.defs = e.defs ∨ .defs ∈ slots) → (slots.foldl e.fill a).defs = e.defs) := by
  induction slots generalizing a with
  | nil => simp
  | cons s slots ih =>
      obtain ⟨hv, hs, hd⟩ := ih (e.fill a s)
      cases s <;> simp_all [fill]

theorem read_of_fields {header : Bytes} {fields : List (Slot × Bytes)}
    (hh : MapHeaderOf fields.length header) (h : ∀ f ∈ fields, Field e f.1 f.2)
    (hall : ∀ s, s ≠ .other → s ∈ fields.map Prod.fst) (hl : e.defs.length < 2 ^ 32)
    (rest : Bytes) : read (header ++ (fields.flatMap Prod.snd ++ rest)) = .ok (e, rest) := by
  have whole : (fields.map Prod.fst).foldl e.fill blank = e := by
    obtain ⟨hv, hs, hd⟩ := foldl_fill (e := e) (fields.map Prod.fst) blank
    have hv := hv (.inr (hall .version nofun))
    have hs := hs (.inr (hall .sum nofun))
    have hd := hd (.inr (hall .defs nofun))
    generalize (fields.map Prod.fst).foldl e.fill blank = a at hv hs hd
    cases a
    cases e
    simp_all
  rw [read, hh.reads]
  simp only [readEntries_fields h hl, whole]

theorem length_write_le (e : Envelope) : e.write.length ≤ e.room := by
  have hv := Pack.length_int_le e.version.toInt
  have hs := Pack.length_uint_le e.sum.toNat
  have hd := Pack.length_binary_le e.defs
  have hkeys : (Pack.mapHeader 3).length = 1 ∧ (Pack.string versionKey).length = 2 ∧
      (Pack.string sumKey).length = 4 ∧ (Pack.string defsKey).length = 5 := by decide
  simp only [write, List.length_append, room, headerRoom, numberRoom]
  omega

/-- A written envelope is read back, whatever bytes follow it, and so is every map that has its
parts in any order and among other entries. It is written within its room. -/
theorem read_fields (e : Envelope) :
    (e.defs.length < 2 ^ 32 → ∀ rest, read (e.write ++ rest) = .ok (e, rest) ∧
      ∀ (header : Bytes) (fields : List (Slot × Bytes)), MapHeaderOf fields.length header →
        (∀ f ∈ fields, Field e f.1 f.2) → (∀ s, s ≠ .other → s ∈ fields.map Prod.fst) →
          read (header ++ (fields.flatMap Prod.snd ++ rest)) = .ok (e, rest)) ∧
      e.write.length ≤ e.room := by
  refine ⟨fun hl rest => ⟨read_reads hl rest, fun header fields hh h hall => ?_⟩,
    length_write_le e⟩
  exact read_of_fields hh h hall hl rest

/-- The parts backwards, with a map and a number among them, under keys in long spellings. -/
theorem read_fields_backwards :
    let e : Envelope := ⟨-7, 300, [1, 2]⟩
    e.defs.length < 2 ^ 32 ∧
      read ([0xDE, 0x00, 0x05] ++ ([0xD9, 0x01, 0x6D, 0x81, 0xC3, 0x91, 0xC0] ++
        [0xA4, 0x64, 0x65, 0x66, 0x73, 0xC4, 0x02, 1, 2] ++
        [0xDA, 0x00, 0x03, 0x73, 0x75, 0x6D, 0xCD, 1, 44] ++
        [0xA0, 0xCC, 0x2A] ++ [0xA1, 0x76, 0xF9] ++ [0xFF])) = .ok (e, [0xFF]) := by
  intro e
  refine ⟨by decide, ?_⟩
  have nil : Value [0xC0] := .fixed rfl
  have true : Value [0xC3] := .fixed rfl
  have array : Value [0x91, 0xC0] := @Value.values _ [[0xC0]] rfl (by simpa)
  have map : Value [0x81, 0xC3, 0x91, 0xC0] :=
    @Value.values _ [[0xC3], [0x91, 0xC0]] rfl (by simp [true, array])
  have byte : Value [0xCC, 0x2A] := .fixed rfl
  have m : StringOf [0x6D] [0xD9, 0x01, 0x6D] := .one (by decide)
  have empty : StringOf [] [0xA0] := .short (by decide)
  let entries : List (Slot × Bytes) :=
    [(.other, [0xD9, 0x01, 0x6D] ++ [0x81, 0xC3, 0x91, 0xC0]),
      (.defs, [0xA4, 0x64, 0x65, 0x66, 0x73] ++ Pack.binary e.defs),
      (.sum, [0xDA, 0x00, 0x03, 0x73, 0x75, 0x6D] ++ Pack.uint e.sum.toNat),
      (.other, [0xA0] ++ [0xCC, 0x2A]),
      (.version, [0xA1, 0x76] ++ Pack.int e.version.toInt)]
  have fields : ∀ f ∈ entries, Field e f.1 f.2 := by
    simp only [entries, List.forall_mem_cons, List.not_mem_nil, false_imp_iff, implies_true,
      and_true]
    exact ⟨.other m (by decide) (by decide) (by decide) map, .defs (.short (by decide)),
      .sum (.two (by decide)), .other empty (by decide) (by decide) (by decide) byte,
      .version (.short (by decide))⟩
  have written : Pack.binary e.defs = [0xC4, 0x02, 1, 2] ∧ Pack.int e.version.toInt = [0xF9] ∧
      Pack.uint e.sum.toNat = [0xCD, 1, 44] := by decide
  have header : MapHeaderOf entries.length [0xDE, 0x00, 0x05] := @MapHeaderOf.two 5 (by decide)
  have hread := ((read_fields e).1 (by decide) [0xFF]).2 [0xDE, 0x00, 0x05] entries header fields
    fun s hs => by cases s <;> simp_all [entries]
  simpa only [entries, written, List.flatMap_cons, List.flatMap_nil, List.append_assoc,
    List.cons_append, List.nil_append] using hread

end Envelope

end CellScheme
