import Mathlib.Logic.Equiv.Defs
import OutOfOrder.Proofs.Coherent.Cycle
/-!
# Renumbering

A tag is a station's position in the pool. If the stations stand in another
order every tag is another number, and everything that holds a tag has to be
read in the other numbering: operands, status tables, stations and the lines
of the histories. `ρ` gives for each position the other one.

Whatever is done with a tag commutes with this, since all that is ever asked
of two tags is whether they are the same.
-/

namespace OutOfOrder

variable {ρ : Equiv.Perm Nat} {t t' : Tag} {v : Int} {r : Reg} {s : Station} {o : Occupant}

/-- **A tag in the other numbering.** A number below zero is no position, and
stays. -/
def renumberTag (ρ : Equiv.Perm Nat) : Tag → Tag
  | .ofNat n => (ρ n : Nat)
  | .negSucc n => .negSucc n

@[simp] theorem renumberTag_natCast (n : Nat) : renumberTag ρ (n : Int) = (ρ n : Nat) := rfl

@[simp] theorem renumberTag_inj : renumberTag ρ t = renumberTag ρ t' ↔ t = t' := by
  refine ⟨fun h => ?_, fun h => h ▸ rfl⟩
  rcases t with n | n <;> rcases t' with k | k <;> simp only [renumberTag] at h
  · exact congrArg Int.ofNat (ρ.injective (Int.ofNat.inj h))
  · cases h
  · cases h
  · exact h

theorem map_renumberTag_eq_some_iff {x : Option Tag} :
    x.map (renumberTag ρ) = some (renumberTag ρ t) ↔ x = some t := by
  cases x <;> simp

/-! ## Operands -/

/-- An operand in the other numbering. -/
def Operand.renumber (ρ : Equiv.Perm Nat) : Operand → Operand
  | waiting t => waiting (renumberTag ρ t)
  | x => x

namespace Operand

variable {x : Operand}

@[simp] theorem value?_renumber : (x.renumber ρ).value? = x.value? := by cases x <;> rfl

@[simp] theorem tag?_renumber : (x.renumber ρ).tag? = x.tag?.map (renumberTag ρ) := by
  cases x <;> rfl

@[simp] theorem ready_renumber : (x.renumber ρ).ready = x.ready := by cases x <;> rfl

theorem hear_renumber : (x.renumber ρ).hear (renumberTag ρ t) v = (x.hear t v).renumber ρ := by
  cases x with
  | waiting t' =>
    simp only [renumber, hear, renumberTag_inj]
    split <;> rfl
  | _ => rfl

end Operand

/-! ## Status tables and registers -/

/-- A status table in the other numbering. -/
def renumberTable (ρ : Equiv.Perm Nat) (table : StatusTable) : StatusTable :=
  table.map (Option.map (renumberTag ρ))

@[simp] theorem get_renumberTable (table : StatusTable) :
    (renumberTable ρ table).get r = (table.get r).map (renumberTag ρ) :=
  Vector.getElem_map ..

/-- Two tables with the same entries. -/
theorem statusTable_ext {table table' : StatusTable} (h : ∀ r, table.get r = table'.get r) :
    table = table' :=
  Vector.ext fun n hn => h ⟨n, hn⟩

/-- The register file in the other numbering. -/
def Registers.renumber (ρ : Equiv.Perm Nat) (f : Registers) : Registers :=
  { f with status := renumberTable ρ f.status }

namespace Registers

variable {f : Registers}

@[simp] theorem get_renumber : (f.renumber ρ).get r = f.get r := rfl

theorem operand_renumber : (f.renumber ρ).operand r = (f.operand r).renumber ρ := by
  have htag : (f.renumber ρ).tag r = (f.tag r).map (renumberTag ρ) := by
    rw [tag, tag]
    split
    · rfl
    · exact get_renumberTable f.status
  rw [operand, operand, htag]
  rcases f.tag r with - | t <;> rfl

theorem set_renumber : (f.renumber ρ).set r v = (f.set r v).renumber ρ := by
  rw [set, set]
  split <;> rfl

theorem rename_renumber :
    (f.renumber ρ).rename r (renumberTag ρ t) = (f.rename r t).renumber ρ := by
  rw [rename, rename]
  split
  · rfl
  · simp only [renumber, renumberTable, Vector.map_set, Option.map_some]

theorem commit_renumber : (f.renumber ρ).commit r = (f.commit r).renumber ρ := by
  simp only [commit, renumber, renumberTable, Vector.map_set, Option.map_none]

theorem restore_renumber {saved : StatusTable} :
    (f.renumber ρ).restore (renumberTable ρ saved) = (f.restore saved).renumber ρ := by
  simp only [restore, renumber, renumberTable, Vector.map_set, Option.map_none]

theorem broadcast_renumber {through : List Int} :
    (f.renumber ρ).broadcast (renumberTag ρ t) v through =
      (f.broadcast t v through).renumber ρ := by
  have hears : ∀ r, (f.renumber ρ).hears (renumberTag ρ t) through r = f.hears t through r := by
    intro r
    simp only [Registers.hears, renumber, get_renumberTable, map_renumberTag_eq_some_iff]
  have values : ((f.renumber ρ).broadcast (renumberTag ρ t) v through).values =
      (f.broadcast t v through).values := by
    simp only [broadcast, hears]
    rfl
  have status : ((f.renumber ρ).broadcast (renumberTag ρ t) v through).status =
      renumberTable ρ (f.broadcast t v through).status := by
    refine statusTable_ext fun r => ?_
    simp only [status_broadcast, renumber, get_renumberTable, map_renumberTag_eq_some_iff]
    split <;> rfl
  exact congrArg₂ Registers.mk values status

end Registers

/-! ## Stations -/

/-- An instruction in a station in the other numbering. -/
def Occupant.renumber (ρ : Equiv.Perm Nat) (o : Occupant) : Occupant :=
  { o with
    j := o.j.renumber ρ
    k := o.k.renumber ρ
    checkpoint := o.checkpoint.map (renumberTable ρ) }

namespace Occupant

@[simp] theorem instr_renumber : (o.renumber ρ).instr = o.instr := rfl

@[simp] theorem pc_renumber : (o.renumber ρ).pc = o.pc := rfl

@[simp] theorem seq_renumber : (o.renumber ρ).seq = o.seq := rfl

@[simp] theorem imm_renumber : (o.renumber ρ).imm = o.imm := rfl

@[simp] theorem cycles_renumber : (o.renumber ρ).cycles = o.cycles := rfl

@[simp] theorem value?_j_renumber : (o.renumber ρ).j.value? = o.j.value? :=
  Operand.value?_renumber

@[simp] theorem value?_k_renumber : (o.renumber ρ).k.value? = o.k.value? :=
  Operand.value?_renumber

@[simp] theorem checkpoint_renumber :
    (o.renumber ρ).checkpoint = o.checkpoint.map (renumberTable ρ) := rfl

end Occupant

/-- A station in the other numbering. -/
def Station.renumber (ρ : Equiv.Perm Nat) (s : Station) : Station :=
  { s with
    tag := renumberTag ρ s.tag
    occupant := s.occupant.map (Occupant.renumber ρ) }

/-- A line of a history in the other numbering. -/
def Entry.renumber (ρ : Equiv.Perm Nat) (e : Entry) : Entry := { e with tag := renumberTag ρ e.tag }

@[simp] theorem Machine.taken_renumber : taken (o.renumber ρ) = taken o := by
  simp only [taken, Occupant.value?_j_renumber, Occupant.value?_k_renumber]

namespace Station

@[simp] theorem kind_renumber : (s.renumber ρ).kind = s.kind := rfl

@[simp] theorem name_renumber : (s.renumber ρ).name = s.name := rfl

@[simp] theorem latency_renumber : (s.renumber ρ).latency = s.latency := rfl

@[simp] theorem result_renumber : (s.renumber ρ).result = s.result := rfl

@[simp] theorem occupant_renumber :
    (s.renumber ρ).occupant = s.occupant.map (Occupant.renumber ρ) := rfl

@[simp] theorem busy_renumber : (s.renumber ρ).busy = s.busy := Option.isSome_map

theorem renumber_advance : (s.renumber ρ).advance = s.advance.renumber ρ := by
  have hadvances : (s.renumber ρ).advances = s.advances := by
    rcases ho : s.occupant with - | o <;>
      simp [advances, renumber, ho, Occupant.ready, Occupant.renumber]
  rw [advance, advance, hadvances]
  split
  · simp only [renumber, Option.map_map]
    rfl
  · rfl

theorem renumber_squash {q : Int} : (s.renumber ρ).squash q = (s.squash q).renumber ρ := by
  have hany : ((s.renumber ρ).occupant.any fun o => q < o.seq) =
      s.occupant.any fun o => q < o.seq := Option.any_map ..
  rw [squash, squash, hany]
  split <;> rfl

theorem renumber_withAddress {a : Int} :
    (s.renumber ρ).withAddress a = (s.withAddress a).renumber ρ := by
  simp only [withAddress, renumber, Option.map_map]
  rfl

@[simp] theorem addressDue_renumber :
    (s.renumber ρ).addressDue (o.renumber ρ) = s.addressDue o := by
  simp only [addressDue, Occupant.renumber, Operand.ready_renumber]
  rfl

@[simp] theorem accessDue_renumber :
    Machine.accessDue (s.renumber ρ) (o.renumber ρ) = Machine.accessDue s o := rfl

theorem pendingSeq?_renumber : Machine.pendingSeq? (s.renumber ρ) = Machine.pendingSeq? s := by
  simp only [Machine.pendingSeq?, renumber, Option.map_map]
  rfl

theorem blocks_renumber {p : Station} :
    Machine.blocks (s.renumber ρ) (o.renumber ρ) (p.renumber ρ) = Machine.blocks s o p :=
  Option.any_map ..

/-- A pending branch in the other numbering has saved the table in the other
numbering. -/
theorem savedTag_renumber :
    (s.renumber ρ).savedTag (renumberTag ρ t) r = s.savedTag t r := by
  rcases ho : s.occupant with - | o
  · simp [savedTag, renumber, ho]
  · rcases hsaved : o.checkpoint with - | saved <;>
      simp [savedTag, renumber, ho, Occupant.renumber, hsaved]

theorem settled_renumberTable {table : StatusTable} :
    settled (renumberTag ρ t) (renumberTable ρ table) = renumberTable ρ (settled t table) := by
  simp only [settled, renumberTable, Vector.map_map]
  congr 1
  funext x
  simp only [Function.comp_apply, map_renumberTag_eq_some_iff]
  split <;> rfl

/-- **A station hears a result in either numbering.** -/
theorem told_renumber : (s.renumber ρ).told (renumberTag ρ t) v = (s.told t v).renumber ρ := by
  have hsettle : (s.renumber ρ).settle (renumberTag ρ t) = (s.settle t).renumber ρ := by
    rw [settle, settle, kind_renumber]
    split
    · simp only [renumber, Option.map_map]
      congr 2
      funext o
      simp only [Function.comp_apply, Occupant.renumber, Option.map_map]
      congr 2
      funext table
      exact settled_renumberTable
    · rfl
  rw [told, told, hsettle]
  simp only [hear, renumber, Option.map_map]
  congr 2
  funext o
  simp only [Function.comp_apply, Occupant.hear, Occupant.renumber, Operand.hear_renumber]

end Station

end OutOfOrder
