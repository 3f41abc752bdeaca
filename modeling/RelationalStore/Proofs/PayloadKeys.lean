import RelationalStore.Proofs.PayloadParts

/- What a payload says of the foreign keys in the rows that it writes, found without a look at any
   row. A row that is created has a key checked only if a part of it is written as a value or comes
   from the parent that it is created for, and before defaults fill the row; one that is connected
   has none checked. A payload vouches for a foreign key (`Schema.Vouches`) if nothing is left in it
   that way which might reference no row: its defaults are not used, and no relation takes over a
   part of it for itself, or else a part of it stays null or is checked. -/
namespace RelationalStore

/-- Left out, the field is null. -/
def FieldDef.Plain (f : FieldDef) : Prop :=
  f.default.isNone = true ∧ f.list = false ∧ f.updatedAt = false

instance (f : FieldDef) : Decidable f.Plain := by
  unfold FieldDef.Plain
  infer_instance

/-- The literal that a write gives a field of a new row: a plain one, or one that is set. -/
def FieldWrite.newLiteral? : FieldWrite → Option Json
  | .literal value => some value
  | .update (.set value) => some value
  | _ => none

/-- A row that takes over a key through `o` has its foreign key of `r` left alone or taken over with
it. -/
def Relation.Agrees (o r : Relation) : Prop :=
  (∀ f ∈ r.near, f ∉ o.near) ∨
    (r.near.Nodup ∧ o.near = r.near ∧ o.far = r.far ∧ o.target = r.target)

instance (o r : Relation) : Decidable (o.Agrees r) := by
  unfold Relation.Agrees
  infer_instance

/-- A relation without a key of its own, seen from the rows at the other end. -/
def Relation.backward (r : Relation) (owner : String) : Relation :=
  { r with target := owner, near := r.far, far := r.near }

namespace Entity
variable {e : Entity}

/-- The relation through which an entry of write data gives a row a key to take over. -/
def link? (e : Entity) : String × FieldWrite → Option Relation
  | (name, .relation _) => (e.relation? name).filter Relation.isOwning
  | _ => none

def links (e : Entity) (fields : List (String × FieldWrite)) : List Relation :=
  fields.filterMap e.link?

theorem links_cons (entry : String × FieldWrite) (rest : List (String × FieldWrite)) :
    e.links (entry :: rest) = e.links [entry] ++ e.links rest := by
  rw [links, links, links, ← List.filterMap_append, List.singleton_append]

theorem links_relation {name : String} {r : Relation} (hr : e.relation? name = some r)
    (write : NestedWrite) : e.links [(name, .relation write)] = if r.isOwning then [r] else [] := by
  cases h : r.isOwning <;> simp [links, link?, hr, Option.filter, h]

/-- The fields of a row that write data and a parent, from which the row takes over those in `link`,
give a value. -/
def provided (e : Entity) (link : List String) (fields : List (String × FieldWrite)) : List String :=
  e.writtenFields fields ++ link ++ (e.links fields).flatMap (·.near)

theorem mem_provided_append (fields more : List (String × FieldWrite)) {f : String} :
    f ∈ e.provided [] (fields ++ more) ↔ f ∈ e.provided [] fields ∨ f ∈ e.provided [] more := by
  simp only [provided, writtenFields, links, List.append_nil, List.map_append, List.filter_append,
    List.filterMap_append, List.flatMap_append, List.mem_append]
  grind

theorem mem_provided (link : List String) (fields : List (String × FieldWrite)) {f : String} :
    f ∈ e.provided link fields ↔ f ∈ link ∨ f ∈ e.provided [] fields := by
  simp only [provided, List.append_nil, List.mem_append]
  grind

theorem mem_provided_written {name : String} {write : FieldWrite} (hname : (e.field? name).isSome)
    (hwrite : e.link? (name, write) = none) {f : String} :
    f ∈ e.provided [] [(name, write)] ↔ f = name := by
  simp [provided, writtenFields, links, hname, hwrite]

theorem mem_provided_relation {name : String} {r : Relation} (hname : e.field? name = none)
    (hr : e.relation? name = some r) {write : NestedWrite} {f : String} :
    f ∈ e.provided [] [(name, .relation write)] ↔ r.isOwning = true ∧ f ∈ r.near := by
  rw [provided, writtenFields_relation hname, links_relation hr]
  split
  · next h => simp [h]
  · next h => simp [h]

/-- The entries of write data that do not write a null. -/
def fillings (fields : List (String × FieldWrite)) : List (String × FieldWrite) :=
  fields.filter fun entry => !entry.2.newLiteral?.any Json.isNull

theorem fillings_cons (entry : String × FieldWrite) (rest : List (String × FieldWrite)) :
    fillings (entry :: rest) = fillings [entry] ++ fillings rest := by
  rw [fillings, fillings, fillings, ← List.filter_append, List.singleton_append]

/-- A part of the foreign key is null in a row that is created: nothing else is written to it, and no
default fills it. -/
def LeavesOpen (e : Entity) (link : List String) (fields : List (String × FieldWrite))
    (r : Relation) : Prop :=
  ∃ f ∈ e.fields, f.name ∈ r.near ∧ f.name ∉ e.provided link (fillings fields) ∧
    (f.Plain ∨ f.name ∈ e.provided link fields)

/-- A part of the foreign key is written as a value or comes from a parent, so it is checked. -/
def Writes (e : Entity) (link : List String) (fields : List (String × FieldWrite))
    (r : Relation) : Prop :=
  ∃ f ∈ r.near, f ∈ e.writtenFields fields ++ link

/-- The foreign key of a row that is created has a part that is null, or gets all its values from the
payload and is checked or taken over as a whole. -/
def Vouches (e : Entity) (link : List String) (data : WriteData) (r : Relation) : Prop :=
  e.LeavesOpen link data.fields r ∨
    (∀ f ∈ e.fields, f.name ∈ r.near → f.Plain ∨ f.name ∈ e.provided link data.fields) ∧
      (e.Writes link data.fields r ∨ ∀ o ∈ e.links data.fields, o.Agrees r)

instance (link : List String) (fields : List (String × FieldWrite)) (r : Relation) :
    Decidable (e.LeavesOpen link fields r) := by
  unfold LeavesOpen
  infer_instance

instance (link : List String) (fields : List (String × FieldWrite)) (r : Relation) :
    Decidable (e.Writes link fields r) := by
  unfold Writes
  infer_instance

instance (link : List String) (data : WriteData) (r : Relation) :
    Decidable (e.Vouches link data r) := by
  unfold Vouches
  infer_instance

/-- It does not matter how the fields are listed that come from a parent. -/
theorem Vouches.congr {link link' : List String} {data : WriteData} {r : Relation}
    (h : e.Vouches link data r) (hlink : ∀ f, f ∈ link' ↔ f ∈ link) : e.Vouches link' data r := by
  simpa only [Vouches, LeavesOpen, Writes, provided, List.mem_append, hlink] using h

end Entity

namespace PayloadPart
variable (p : PayloadPart)

/-- The rows that are created. -/
def rows : List WriteData := p.write.create ++ p.write.createMany.elim [] CreateMany.data

/-- The fields that these take over from the row that is written. -/
def link : List String := if p.relation.isOwning then [] else p.relation.far

/-- The part vouches for a foreign key in the rows of the table that it creates or connects. -/
def Vouches (s : Schema) (n : String) (r : Relation) : Prop :=
  p.relation.target = n →
    (∀ t ∈ s.entity? n, ∀ data ∈ p.rows, t.Vouches p.link data r) ∧
      (p.relation.isOwning = false → p.write.connect.isEmpty = false →
        (p.relation.backward p.owner).Agrees r)

instance (s : Schema) (n : String) (r : Relation) : Decidable (p.Vouches s n r) := by
  unfold Vouches
  infer_instance

end PayloadPart

namespace Schema

/-- A request vouches for a foreign key in every row of the table that it creates or connects. -/
def Vouches (s : Schema) (e : Entity) (access : Access) (q : Query) (n : String) (r : Relation) :
    Prop :=
  ∀ data ∈ q.data.elim [] Data.rows,
    (access = .create → e.name = n → e.Vouches [] data r) ∧
      ∀ p ∈ s.parts e data, p.Vouches s n r

instance (s : Schema) (e : Entity) (access : Access) (q : Query) (n : String) (r : Relation) :
    Decidable (s.Vouches e access q n r) := by
  unfold Vouches
  infer_instance

end Schema

end RelationalStore
