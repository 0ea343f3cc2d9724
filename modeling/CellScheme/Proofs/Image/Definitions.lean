import CellScheme.Proofs.Image.Layout
import CellScheme.Proofs.Lawful.Basic

/-!
Expressions and definitions are read back as they were written, if no procedure in them has more
bound arguments than parameters. Reading gives no other trees, and evaluation makes no others.
-/

namespace CellScheme

open Pack (Reads)

namespace Datum

/-- No procedure in the tree has more bound arguments than parameters. -/
inductive Bounded : Datum → Prop where
  | int (v : Int64) : Bounded (.int v)
  | bool (b : Bool) : Bounded (.bool b)
  | symbol (name : Name) : Bounded (.symbol name)
  | builtin (name : Name) : Bounded (.builtin name)
  | quote {d : Datum} : Bounded d → Bounded (.quote d)
  | list {ds : List Datum} : (∀ d ∈ ds, Bounded d) → Bounded (.list ds)
  | lambda {bound : List Datum} {params : List Name} {body : Datum} :
      bound.length ≤ params.length → (∀ d ∈ bound, Bounded d) → Bounded body →
        Bounded (.lambda bound params body)

theorem Bounded.body {bound : List Datum} {params : List Name} {body : Datum}
    (h : Bounded (.lambda bound params body)) : Bounded body := by
  cases h with
  | lambda _ _ hk => exact hk

end Datum

theorem lawful_bounded : Lawful Datum.Bounded where
  int := .int
  bool := .bool
  symbol := .symbol
  quote := by
    refine ⟨fun h => ?_, .quote⟩
    cases h with
    | quote h => exact h
  list := by
    refine ⟨fun h => ?_, .list⟩
    cases h with
    | list h => exact h
  closure _ h := .lambda (Nat.zero_le _) (by simp) h
  bound h := by
    cases h with
    | lambda _ hb _ => exact hb
  body h := .inl h.body
  supply h ha hlen := by
    cases h with
    | lambda _ hb hk =>
        exact .lambda (by simpa using hlen) (List.forall_mem_append.mpr ⟨hb, ha⟩) hk
  standing name arity := by
    refine .lambda (Nat.zero_le _) (by simp) (.list fun d hd => ?_)
    rcases List.mem_cons.mp hd with rfl | hd
    · exact .builtin name
    · obtain ⟨n, _, rfl⟩ := List.mem_map.mp hd
      exact .symbol n

namespace Piece

variable {α : Type} (write : α → Bytes) (as : List α)

/-- Values with the bytes that are written for them, which have all that they declare. -/
def written : List (Piece α) :=
  as.map fun a => ⟨a, 0, write a⟩

@[simp]
theorem length_written : (written write as).length = as.length := by
  simp [written]

@[simp]
theorem value_written : (written write as).map value = as := by
  simp [written, Function.comp_def]

@[simp]
theorem unread_written : ((written write as).map unread).sum = 0 := by
  simp [written, Function.comp_def]

@[simp]
theorem bytes_written : (written write as).flatMap bytes = as.flatMap write := by
  rw [written, List.flatMap_map]

end Piece

namespace Datum

theorem length_arrayHeader_pos (n : Nat) : 0 < (Pack.arrayHeader n).length := by
  unfold Pack.arrayHeader
  split_ifs <;> simp

theorem lt_length_string (bs : Bytes) : bs.length < (Pack.string bs).length := by
  have hheader : 0 < (Pack.stringHeader bs.length).length := by
    unfold Pack.stringHeader
    split_ifs <;> simp
  rw [Pack.string, List.length_append]
  omega

theorem length_pack_pos (d : Datum) : 0 < d.pack.length := by
  cases d <;> simp only [pack, packHead, List.length_append] <;>
    exact Nat.add_pos_left (by simp [length_arrayHeader_pos]) _

theorem packSeq_eq_flatMap (ds : List Datum) : packSeq ds = ds.flatMap pack := by
  induction ds with
  | nil => rfl
  | cons d ds ih => rw [packSeq, ih, List.flatMap_cons]

theorem length_le_of_mem {α : Type} (write : α → Bytes) {as : List α} {a : α} (h : a ∈ as) :
    (write a).length ≤ (as.flatMap write).length := by
  rw [List.flatMap_def]
  exact (List.sublist_flatten_of_mem (List.mem_map_of_mem h)).length_le

theorem length_le_packSeq (ds : List Datum) : ds.length ≤ (packSeq ds).length := by
  rw [packSeq_eq_flatMap]
  exact length_le_flatMap fun d _ => d.length_pack_pos

theorem length_le_strings (names : List Name) :
    names.length ≤ (names.flatMap fun p => Pack.string p.bytes).length :=
  length_le_flatMap fun n _ => Nat.zero_lt_of_lt (lt_length_string n.bytes)

theorem unpackNames_reads {names : List Name}
    (h : (names.flatMap fun p => Pack.string p.bytes).length < 2 ^ 32) :
    Reads (unpackNames names.length) (names.flatMap fun p => Pack.string p.bytes) names := by
  induction names with
  | nil => exact fun _ => rfl
  | cons n ns ih =>
      rw [List.flatMap_cons, List.length_append] at h
      have hn := lt_length_string n.bytes
      have hs := Pack.Reads.lift (Pack.readString_reads (by omega : n.bytes.length < 2 ^ 32))
      intro rest
      simp only [List.flatMap_cons, List.append_assoc, List.length_cons, unpackNames, hs _,
        ih (by omega) rest, Except.map]

theorem head_packHead {fields : Nat} (h : fields < 2 ^ 32) (k : Kind) :
    Head fields k (packHead fields k) :=
  ⟨_, _, rfl, Pack.readArrayHeader_reads h, Pack.readInt_reads k.tag⟩

theorem laid_written {ds : List Datum} (h : ∀ d ∈ ds, d.pack.length < 2 ^ 32 → Laid d 0 d.pack)
    (hl : (packSeq ds).length < 2 ^ 32) :
    ∀ p ∈ Piece.written pack ds, Laid p.value p.unread p.bytes := by
  intro p hp
  obtain ⟨d, hd, rfl⟩ := List.mem_map.mp hp
  rw [packSeq_eq_flatMap] at hl
  exact h d hd (lt_of_le_of_lt (length_le_of_mem pack hd) hl)

/-- What is written for a bounded tree has all the fields that it declares. -/
theorem Bounded.laid {d : Datum} (h : d.Bounded) (hl : d.pack.length < 2 ^ 32) :
    Laid d 0 d.pack := by
  induction h with
  | int v =>
      rw [pack]
      exact .int (head_packHead (by omega) _) (Pack.readInt_reads v)
  | bool b =>
      rw [pack]
      exact .bool (head_packHead (by omega) _) (Pack.readBool_reads b)
  | symbol name =>
      rw [pack, List.length_append] at hl
      have hn := lt_length_string name.bytes
      rw [pack]
      exact .symbol (head_packHead (by omega) _) (Pack.readString_reads (by omega))
  | builtin name =>
      rw [pack, List.length_append] at hl
      have hn := lt_length_string name.bytes
      rw [pack]
      exact .builtin (head_packHead (by omega) _) (Pack.readString_reads (by omega))
  | quote _ ih =>
      rw [pack, List.length_append] at hl
      rw [pack]
      exact .quote (e := 0) (head_packHead (by omega) _) (ih (by omega))
  | @list ds _ ih =>
      simp only [pack, List.length_append] at hl
      have hlen := length_le_packSeq ds
      have hc := Pack.readArrayHeader_reads (by omega : ds.length < 2 ^ 32)
      rw [← Piece.length_written pack] at hc
      have hlaid := Laid.list (e := 0) (head_packHead (by omega) _) hc
        (laid_written ih (by omega))
      simpa [pack, packSeq_eq_flatMap] using hlaid
  | @lambda bound params body hlen _ _ ihb ihk =>
      simp only [pack, List.length_append] at hl
      have hb := length_le_packSeq bound
      have hp := length_le_strings params
      have hc := Pack.readArrayHeader_reads (by omega : bound.length < 2 ^ 32)
      rw [← Piece.length_written pack] at hc hlen
      have hlaid := Laid.lambda (head_packHead (by omega) _) hc (laid_written ihb (by omega))
        (Pack.readArrayHeader_reads (by omega : params.length < 2 ^ 32))
        (unpackNames_reads (by omega)) (ihk (by omega)) hlen
      simpa [pack, packSeq_eq_flatMap] using hlaid

/-- What is written for it is read back. -/
theorem Bounded.unpack_pack {d : Datum} (h : d.Bounded) (hl : d.pack.length < 2 ^ 32) :
    unpack d.pack = .ok (d, []) :=
  unpack_eq_ok_iff.mpr ⟨0, d.pack, (List.append_nil _).symm, h.laid hl⟩

/-- Every tree that is read is bounded: the reader refuses a procedure that is not. -/
theorem Laid.bounded {d : Datum} {u : Nat} {bs : Bytes} (h : Laid d u bs) : d.Bounded := by
  have values {ps : List (Piece Datum)} (ih : ∀ p ∈ ps, p.value.Bounded) :
      ∀ d ∈ ps.map Piece.value, d.Bounded := by
    simpa using ih
  induction h with
  | int _ _ => exact .int _
  | bool _ _ => exact .bool _
  | symbol _ _ => exact .symbol _
  | builtin _ _ => exact .builtin _
  | quote _ _ ih => exact .quote ih
  | list _ _ _ ih => exact .list (values ih)
  | lambda _ _ _ _ _ _ hlen ihs ih =>
      exact .lambda (by rwa [List.length_map]) (values ihs) ih

end Datum

theorem unpackDefinitions_bounded {bs rest : Bytes} {defs : List (Name × Datum)}
    (h : unpackDefinitions bs = .ok (defs, rest)) : ∀ p ∈ defs, p.2.Bounded := by
  obtain ⟨_, _, _, _, ps, _, _, rfl, _, hps⟩ := unpackDefinitions_eq_ok_iff.mp h
  intro p hp
  obtain ⟨piece, hpiece, rfl⟩ := List.mem_map.mp hp
  obtain ⟨_, _, _, _, _, _, ht⟩ := hps piece hpiece
  exact ht.bounded

/-- The bytes of one definition. -/
def packDefinition (p : Name × Datum) : Bytes :=
  Pack.arrayHeader 2 ++ Pack.string p.1.bytes ++ p.2.pack

theorem packDefinitions_some (defs : List (Name × Datum)) :
    packDefinitions (defs.map fun p => (p.1, some p.2)) =
      Pack.arrayHeader defs.length ++ defs.flatMap packDefinition := by
  rw [packDefinitions, List.length_map, List.flatMap_map]
  rfl

theorem length_packDefinition_pos (p : Name × Datum) : 0 < (packDefinition p).length := by
  have hp := p.2.length_pack_pos
  rw [packDefinition, List.length_append]
  omega

theorem laid_writtenDefinitions {defs : List (Name × Datum)} (h : ∀ p ∈ defs, p.2.Bounded)
    (hl : (defs.flatMap packDefinition).length < 2 ^ 32) :
    ∀ p ∈ Piece.written packDefinition defs, LaidDefinition p.value p.unread p.bytes := by
  intro p hp
  obtain ⟨q, hq, rfl⟩ := List.mem_map.mp hp
  have hlen := Datum.length_le_of_mem packDefinition hq
  simp only [packDefinition, List.length_append] at hlen
  have hn := Datum.lt_length_string q.1.bytes
  refine ⟨_, _, _, List.append_assoc _ _ _, Pack.readArrayHeader_reads (by omega),
    Pack.readString_reads (by omega), (h q hq).laid (by omega)⟩

theorem unpackDefinitions_reads {defs : List (Name × Datum)} (h : ∀ p ∈ defs, p.2.Bounded)
    (hl : (packDefinitions (defs.map fun p => (p.1, some p.2))).length < 2 ^ 32) :
    Reads unpackDefinitions (packDefinitions (defs.map fun p => (p.1, some p.2))) defs := by
  rw [packDefinitions_some] at hl ⊢
  rw [List.length_append] at hl
  have hlen := Datum.length_le_flatMap fun p (_ : p ∈ defs) => length_packDefinition_pos p
  have hc := Pack.readArrayHeader_reads (by omega : defs.length < 2 ^ 32)
  have hps := laid_writtenDefinitions h (by omega)
  intro rest
  refine unpackDefinitions_eq_ok_iff.mpr ⟨0, _, rfl, Pack.arrayHeader defs.length,
    Piece.written packDefinition defs, ?_⟩
  simp only [Piece.bytes_written, Piece.length_written, Piece.value_written, Piece.unread_written]
  exact ⟨trivial, hc, trivial, trivial, hps⟩

theorem exists_found {defs : List (Name × Option Datum)} (h : ∀ p ∈ defs, p.2.isSome) :
    ∃ found : List (Name × Datum), defs = found.map fun p => (p.1, some p.2) := by
  refine ⟨defs.attach.map fun p => (p.1.1, p.1.2.get (h p.1 p.2)), ?_⟩
  simp only [List.map_map, Function.comp_def, Option.some_get, Prod.mk.eta]
  exact (List.attach_map_subtype_val defs).symm

/-- The first definition without a value, and those before it. -/
theorem exists_absent {defs : List (Name × Option Datum)} (h : ∃ p ∈ defs, p.2 = none) :
    ∃ (found : List (Name × Datum)) (name : Name) (rest : List (Name × Option Datum)),
      defs = found.map (fun p => (p.1, some p.2)) ++ (name, none) :: rest := by
  induction defs with
  | nil =>
      obtain ⟨p, hp, _⟩ := h
      cases hp
  | cons p ps ih =>
      obtain ⟨name, value⟩ := p
      cases value with
      | none => exact ⟨[], name, ps, rfl⟩
      | some d =>
          obtain ⟨found, other, rest, rfl⟩ := ih (by simpa using h)
          exact ⟨(name, d) :: found, other, rest, rfl⟩

/-- The bytes of one definition that may have no value. -/
def packEntry (p : Name × Option Datum) : Bytes :=
  Pack.arrayHeader 2 ++ Pack.string p.1.bytes ++ Datum.packOption p.2

theorem length_packEntry_pos (p : Name × Option Datum) : 0 < (packEntry p).length := by
  have hp := Datum.length_arrayHeader_pos 2
  simp only [packEntry, List.length_append]
  omega

theorem packDefinitions_absent (found : List (Name × Datum)) (name : Name)
    (rest : List (Name × Option Datum)) :
    packDefinitions (found.map (fun p => (p.1, some p.2)) ++ (name, none) :: rest) =
      Pack.arrayHeader (found.length + (rest.length + 1)) ++ (found.flatMap packDefinition ++
        (Pack.arrayHeader 2 ++ (Pack.string name.bytes ++ (Pack.nil ++
          rest.flatMap packEntry)))) := by
  simp only [packDefinitions, List.length_append, List.length_map, List.length_cons,
    List.flatMap_append, List.flatMap_cons, List.flatMap_map, List.append_assoc, Datum.packOption]
  rfl

/-- No expression starts with nil. -/
theorem Datum.unpack_nil (rest : Bytes) :
    Datum.unpack (Pack.nil ++ rest) = .error (.pack (.wrongForm .nil .array)) := by
  rw [Datum.unpack, Datum.unpackFuel]
  rfl

/-- Definitions of which one has no value are written, but what is written is not read. -/
theorem unpackDefinitions_absent {defs : List (Name × Option Datum)}
    (h : ∀ p ∈ defs, ∀ d, p.2 = some d → d.Bounded) (hnone : ∃ p ∈ defs, p.2 = none)
    (hl : (packDefinitions defs).length < 2 ^ 32) :
    unpackDefinitions (packDefinitions defs) = .error (.pack (.wrongForm .nil .array)) := by
  obtain ⟨found, name, rest, rfl⟩ := exists_absent hnone
  have hfound : ∀ p ∈ found, p.2.Bounded := fun p hp =>
    h _ (List.mem_append.mpr (.inl (List.mem_map_of_mem hp))) p.2 rfl
  have hcount := Datum.length_le_flatMap fun p (_ : p ∈ found) => length_packDefinition_pos p
  have hrest := Datum.length_le_flatMap fun p (_ : p ∈ rest) => length_packEntry_pos p
  have hname := Datum.lt_length_string name.bytes
  rw [packDefinitions_absent] at hl ⊢
  simp only [List.length_append] at hl
  have h₁ := (Pack.readArrayHeader_reads
    (by omega : found.length + (rest.length + 1) < 2 ^ 32)).lift
  have h₂ := (Pack.readArrayHeader_reads (by omega : 2 < 2 ^ 32)).lift
  have h₃ := (Pack.readString_reads (by omega : name.bytes.length < 2 ^ 32)).lift
  have hread := unpackPairs_append (laid_writtenDefinitions hfound (by omega)) (rest.length + 1)
    (Pack.arrayHeader 2 ++ (Pack.string name.bytes ++ (Pack.nil ++ rest.flatMap packEntry)))
  rw [Piece.length_written, Piece.bytes_written] at hread
  simp only [unpackDefinitions, h₁ _]
  rw [hread]
  simp only [unpackPairs, h₂ _, h₃ _, ne_eq, not_true_eq_false, if_false, Datum.unpack_nil]
  rfl

end CellScheme
