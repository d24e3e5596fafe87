import FlatWasm.Proofs.Lowering

/-!
# Lowering behind another listing

A body is lowered behind what a listing already holds just as it is lowered to a listing of its own,
only that its labels are counted on from those of the listing. Nothing of what stands before is
looked at, so this is true of every body, whether lowering it succeeds or breaks off. Bodies lowered
one after another therefore have labels of their own, and no jump of one lands in another.
-/

namespace FlatWasm

namespace Listing

/-- The label that an operation marks or jumps to. -/
def Op.label? : Op → Option Nat
  | .mark label | .jump label | .jumpIf label => some label
  | _ => none

/-- The operation with its label counted on from `base`. -/
def Op.relabel (base : Nat) : Op → Op
  | .mark label => .mark (base + label)
  | .jump label => .jump (base + label)
  | .jumpIf label => .jumpIf (base + label)
  | op => op

/-- A listing behind another, with its labels counted on from those of the first. -/
def followedBy (listing later : Listing) : Listing :=
  ⟨listing.ops ++ later.ops.map (Op.relabel listing.labels), listing.labels + later.labels⟩

theorem Op.label?_relabel (base : Nat) (op : Op) :
    (op.relabel base).label? = op.label?.map (base + ·) := by
  cases op <;> rfl

theorem Op.relabel_of_label? {op : Op} (h : op.label? = none) (base : Nat) :
    op.relabel base = op := by
  cases op with
  | mark _ => cases h
  | jump _ => cases h
  | jumpIf _ => cases h
  | _ => rfl

theorem Op.label?_of_destination? {op : Op} {label : Nat} (h : op.destination? = some label) :
    op.label? = some label := by
  cases op with
  | jump _ => exact h
  | jumpIf _ => exact h
  | _ => cases h

theorem followedBy_empty (listing : Listing) : listing.followedBy .empty = listing := by
  simp [followedBy, empty]

theorem followedBy_emitAll (listing later : Listing) (ops : List Op) :
    listing.followedBy (later.emitAll ops) =
      (listing.followedBy later).emitAll (ops.map (Op.relabel listing.labels)) := by
  simp only [followedBy, emitAll, mk.injEq, and_true]
  apply Array.toList_inj.mp
  simp

/-- A label that is created behind a listing is the next one there. -/
theorem followedBy_markNew (listing later : Listing) :
    listing.followedBy later.markNew.2 = (listing.followedBy later).markNew.2 := by
  simp [followedBy, markNew, createLabel, emit, Op.relabel, Nat.add_assoc]

/-- A later listing holds what stood in a listing before, in its place, and has all its labels. -/
structure Extends (listing later : Listing) : Prop where
  ops : listing.ops.toList <+: later.ops.toList
  labels : listing.labels ≤ later.labels

theorem Extends.trans {first second third : Listing} (h : first.Extends second)
    (h' : second.Extends third) : first.Extends third :=
  ⟨h.ops.trans h'.ops, Nat.le_trans h.labels h'.labels⟩

theorem extends_followedBy (listing later : Listing) :
    listing.Extends (listing.followedBy later) := by
  refine ⟨?_, Nat.le_add_right _ _⟩
  rw [followedBy, Array.toList_append]
  exact List.prefix_append _ _

theorem Extends.getElem? {listing later : Listing} (h : listing.Extends later) {place : Nat}
    (hp : place < listing.ops.size) : later.ops[place]? = listing.ops[place]? := by
  have hp' : place < listing.ops.toList.length := hp
  rw [← Array.getElem?_toList, ← Array.getElem?_toList, List.getElem?_eq_getElem hp']
  exact List.prefix_iff_getElem?.mp h.ops place hp'

end Listing

/-! ## The same run behind a listing -/

namespace Lowering

/-- The state that a lowering is in when it began behind a listing. -/
def behind (listing : Listing) (state : Lowering) : Lowering :=
  ⟨listing.followedBy state.listing, state.targets.map (Option.map (listing.labels + ·)),
    state.lowered⟩

variable {body : Body} (listing : Listing) (state : Lowering)

theorem start_eq_behind (body : Body) : start body listing = (start body .empty).behind listing := by
  simp [start, behind, Listing.followedBy_empty]

theorem target_behind (label : Label) :
    (state.behind listing).target label = (state.target label).map (listing.labels + ·) := by
  rw [target, target, behind, Array.getElem?_map]
  rcases state.targets[label]? with _ | _ | target <;> rfl

theorem bind_behind (label : Label) (target : Nat) :
    Lowering.bind label (listing.labels + target) (state.behind listing) =
      (Lowering.bind label target state).map id (behind listing) := by
  have hsize : (state.behind listing).targets.size = state.targets.size := by
    rw [behind, Array.size_map]
  rw [Lowering.bind, Lowering.bind, hsize]
  by_cases hlt : label < state.targets.size
  · rw [if_pos hlt, if_pos hlt]
    simp only [Prod.map, id, behind, Array.map_setIfInBounds, Option.map_some]
  · rw [if_neg hlt, if_neg hlt]
    rfl

theorem emit_behind (ops : List Listing.Op) :
    (state.behind listing).emit (ops.map (Listing.Op.relabel listing.labels)) =
      (state.emit ops).map id (behind listing) := by
  simp only [emit, Prod.map, id, behind, Listing.followedBy_emitAll]

theorem emitOne_behind (op : Except LoweringError Listing.Op) :
    (state.behind listing).emitOne (op.map (Listing.Op.relabel listing.labels)) =
      (state.emitOne op).map id (behind listing) := by
  cases op with
  | error error => rfl
  | ok op => exact state.emit_behind listing [op]

theorem jump_behind (label : Label) (op : Nat → Listing.Op)
    (ho : ∀ target, (op target).relabel listing.labels = op (listing.labels + target)) :
    (state.behind listing).emitOne (((state.behind listing).target label).map op) =
      (state.emitOne ((state.target label).map op)).map id (behind listing) := by
  rw [← emitOne_behind, target_behind]
  cases state.target label with
  | error error => rfl
  | ok target => simp only [Except.map, ho]

/-- The operations of an instruction that names no block have no labels. -/
theorem label?_of_plainOps? {plain : Plain} {ops : List Listing.Op} {op : Listing.Op}
    (h : plainOps? body.params plain = some ops) (hm : op ∈ ops) : op.label? = none := by
  have hin : op ∈ Lowering.ops body 0 (.plain plain) := by
    rw [Lowering.ops, ops?, h]
    exact hm
  obtain ⟨hd, hmark⟩ := mem_ops_plain hin
  cases op with
  | mark label => exact absurd rfl (hmark label)
  | jump label => cases hd
  | jumpIf label => cases hd
  | _ => rfl

theorem closing_behind (body : Body) (label : Label) :
    closing body (state.behind listing) label =
      (closing body state label).map (Listing.Op.relabel listing.labels) := by
  rw [closing, closing, target_behind]
  cases state.target label with
  | error error => rfl
  | ok target => rcases body.blocks[label]? with _ | ⟨_ | _ | _, _, _, _, _⟩ <;> rfl

theorem instruction_behind (labelled : Labelled) :
    instruction body labelled (state.behind listing) =
      (instruction body labelled state).map id (behind listing) := by
  cases labelled with
  | plain plain =>
    rw [instruction, instruction]
    cases ho : plainOps? body.params plain with
    | none => rfl
    | some ops =>
      have hsame : ops.map (Listing.Op.relabel listing.labels) = ops.map fun op => op :=
        List.map_congr_left fun op hm => Listing.Op.relabel_of_label? (label?_of_plainOps? ho hm) _
      rw [List.map_id'] at hsame
      have h := state.emit_behind listing ops
      rwa [hsame] at h
  | enter kind type label =>
    cases kind with
    | block =>
      have h := bind_behind listing { state with listing := state.listing.createLabel.2 } label
        state.listing.labels
      exact h
    | loop =>
      have h := bind_behind listing { state with listing := state.listing.markNew.2 } label
        state.listing.labels
      rw [behind, Listing.followedBy_markNew] at h
      exact h
    | cond => rfl
  | otherwise label => rfl
  | close label =>
    cases label with
    | none => exact state.emit_behind listing [.ret]
    | some label =>
      rw [instruction, instruction, closing_behind]
      exact state.emitOne_behind listing _
  | br target => exact state.jump_behind listing target.label .jump fun _ => rfl
  | brIf target => exact state.jump_behind listing target.label .jumpIf fun _ => rfl
  | brTable targets default => rfl

theorem run_behind (body : Body) (rest : List Placed) :
    run body rest (state.behind listing) = (run body rest state).map id (behind listing) := by
  induction rest generalizing state with
  | nil => rfl
  | cons placed rest ih =>
    rw [run, run, instruction_behind]
    rcases instruction body placed.labelled state with ⟨_ | _, after⟩
    · rfl
    · exact ih { after with lowered := after.lowered + 1 }

end Lowering

theorem Body.lower_eq_behind (body : Body) (listing : Listing) :
    body.lower listing = (body.lower .empty).map id (Lowering.behind listing) := by
  rw [lower, Lowering.start_eq_behind, Lowering.run_behind]
  rfl

/-! ## Labels of a listing of its own -/

namespace Lowering

/-- Every label that was used or given to a block was created. -/
structure Owned (state : Lowering) : Prop where
  ops : ∀ op ∈ state.listing.ops.toList, ∀ label, op.label? = some label →
    label < state.listing.labels
  targets : ∀ (label : Label) target, state.targets[label]? = some (some target) →
    target < state.listing.labels

namespace Owned

variable {state : Lowering}

theorem start (body : Body) : Owned (.start body .empty) := by
  constructor
  · simp [Lowering.start, Listing.empty]
  · simp [Lowering.start, Array.getElem?_replicate]

theorem emitAll (o : Owned state) {ops : List Listing.Op}
    (h : ∀ op ∈ ops, ∀ label, op.label? = some label → label < state.listing.labels) :
    Owned { state with listing := state.listing.emitAll ops } := by
  refine ⟨?_, o.targets⟩
  intro op hm
  rw [Listing.emitAll, Array.toList_appendList, List.mem_append] at hm
  rcases hm with hm | hm
  · exact o.ops op hm
  · exact h op hm

/-- A block is given the label that was created last. -/
theorem bind (o : Owned state) (label : Label) {ops : List Listing.Op}
    (h : ∀ op ∈ ops, ∀ own, op.label? = some own → own = state.listing.labels) :
    Owned (Lowering.bind label state.listing.labels { state with listing :=
      ⟨state.listing.ops ++ ops, state.listing.labels + 1⟩ }).2 := by
  have hops : ∀ op ∈ (state.listing.ops ++ ops).toList, ∀ own, op.label? = some own →
      own < state.listing.labels + 1 := by
    intro op hm own hl
    rw [Array.toList_appendList, List.mem_append] at hm
    rcases hm with hm | hm
    · exact Nat.lt_succ_of_lt (o.ops op hm own hl)
    · rw [h op hm own hl]
      exact Nat.lt_succ_self _
  rw [Lowering.bind]
  split
  · refine ⟨hops, ?_⟩
    intro other target ht
    rw [Array.getElem?_setIfInBounds] at ht
    split at ht
    · cases ht
      exact Nat.lt_succ_self _
    · exact Nat.lt_succ_of_lt (o.targets other target ht)
  · exact ⟨hops, fun other target ht => Nat.lt_succ_of_lt (o.targets other target ht)⟩

theorem emitOne (o : Owned state) {op : Except LoweringError Listing.Op}
    (h : ∀ emitted, op = .ok emitted → ∀ label, emitted.label? = some label →
      label < state.listing.labels) : Owned (state.emitOne op).2 := by
  cases op with
  | error error => exact o
  | ok emitted => exact o.emitAll (List.forall_mem_singleton.mpr (h emitted rfl))

theorem jump (o : Owned state) (label : Label) {op : Nat → Listing.Op}
    (ho : ∀ target, (op target).label? = some target) :
    Owned (state.emitOne ((state.target label).map op)).2 := by
  apply o.emitOne
  intro emitted he own hl
  obtain ⟨target, ht, rfl⟩ := map_ok he
  rw [ho, Option.some.injEq] at hl
  rw [← hl]
  exact o.targets label target ht

theorem instruction (o : Owned state) (body : Body) (labelled : Labelled) :
    Owned (Lowering.instruction body labelled state).2 := by
  cases labelled with
  | plain plain =>
    rw [Lowering.instruction]
    cases hp : plainOps? body.params plain with
    | none => exact o
    | some ops =>
      apply o.emitAll
      intro op hm label hl
      rw [label?_of_plainOps? hp hm] at hl
      cases hl
  | enter kind type label =>
    cases kind with
    | block =>
      have h := @bind state o label [] (by simp)
      rw [Array.appendList_nil] at h
      exact h
    | loop =>
      have h := @bind state o label [.mark state.listing.labels] (by simp [Listing.Op.label?])
      rw [Array.appendList_cons, Array.appendList_nil] at h
      exact h
    | cond => exact o
  | otherwise label => exact o
  | close label =>
    cases label with
    | none => exact o.emitAll (by simp [Listing.Op.label?])
    | some label =>
      apply o.emitOne
      intro emitted he own hl
      obtain ⟨target, ht, hk⟩ := closing_ok he
      have hlt := o.targets label target ht
      rcases hk with ⟨-, rfl⟩ | ⟨-, rfl⟩
      · cases hl
        exact hlt
      · cases hl
        exact hlt
  | br target => exact o.jump target.label fun _ => rfl
  | brIf target => exact o.jump target.label fun _ => rfl
  | brTable targets default => exact o

theorem run (o : Owned state) (body : Body) (rest : List Placed) :
    Owned (Lowering.run body rest state).2 := by
  induction rest generalizing state with
  | nil => exact o
  | cons placed rest ih =>
    have ho := o.instruction body placed.labelled
    rw [Lowering.run]
    rcases hi : Lowering.instruction body placed.labelled state with ⟨_ | _, after⟩ <;>
      rw [hi] at ho
    · exact ho
    · exact ih ⟨ho.ops, ho.targets⟩

end Owned

end Lowering

/-! ## Bodies one after another -/

namespace Body

/-- The listing that bodies leave when they are lowered one after another, also those that fail. -/
def lowerAll (bodies : List Body) (listing : Listing) : Listing :=
  bodies.foldl (fun done body => (body.lower done).2.listing) listing

/-- The place belongs to the operations that the body at an index has appended. -/
def Appended (bodies : List Body) (listing : Listing) (index place : Nat) : Prop :=
  (lowerAll (bodies.take index) listing).ops.size ≤ place ∧
    place < (lowerAll (bodies.take (index + 1)) listing).ops.size

variable {bodies : List Body} {listing : Listing}

theorem listing_lower (body : Body) (listing : Listing) :
    (body.lower listing).2.listing = listing.followedBy (body.lower .empty).2.listing := by
  rw [lower_eq_behind]
  rfl

theorem lowerAll_append (front back : List Body) (listing : Listing) :
    lowerAll (front ++ back) listing = lowerAll back (lowerAll front listing) :=
  List.foldl_append

theorem extends_lowerAll (bodies : List Body) (listing : Listing) :
    listing.Extends (lowerAll bodies listing) := by
  induction bodies generalizing listing with
  | nil => exact ⟨List.prefix_refl _, Nat.le_refl _⟩
  | cons body rest ih =>
    have hrest := ih (body.lower listing).2.listing
    rw [listing_lower] at hrest
    rw [lowerAll, List.foldl_cons, listing_lower]
    exact (listing.extends_followedBy _).trans hrest

theorem lowerAll_take_extends (bodies : List Body) (listing : Listing) {front count : Nat}
    (h : front ≤ count) :
    (lowerAll (bodies.take front) listing).Extends (lowerAll (bodies.take count) listing) := by
  obtain ⟨more, rfl⟩ := Nat.exists_eq_add_of_le h
  rw [List.take_add, lowerAll_append]
  exact extends_lowerAll _ _

theorem lowerAll_take_extends_all (bodies : List Body) (listing : Listing) (count : Nat) :
    (lowerAll (bodies.take count) listing).Extends (lowerAll bodies listing) := by
  have h := extends_lowerAll (bodies.drop count) (lowerAll (bodies.take count) listing)
  rwa [← lowerAll_append, List.take_append_drop] at h

/-- What a body appends is labelled with the labels that it has created. -/
theorem label_bounds {index place label : Nat} {op : Listing.Op}
    (hp : Appended bodies listing index place)
    (ho : (lowerAll bodies listing).ops[place]? = some op) (hl : op.label? = some label) :
    (lowerAll (bodies.take index) listing).labels ≤ label ∧
      label < (lowerAll (bodies.take (index + 1)) listing).labels := by
  obtain ⟨hle, hlt⟩ := hp
  rw [(lowerAll_take_extends_all bodies listing (index + 1)).getElem? hlt] at ho
  rw [List.take_add_one] at hlt ho ⊢
  cases hb : bodies[index]? with
  | none =>
    rw [hb, Option.toList_none, List.append_nil] at hlt
    omega
  | some body =>
    have hone : lowerAll (bodies.take index ++ [body]) listing =
        (lowerAll (bodies.take index) listing).followedBy (body.lower .empty).2.listing := by
      rw [lowerAll_append, ← listing_lower]
      rfl
    rw [hb] at ho
    rw [Option.toList_some, hone] at ho ⊢
    rw [Listing.followedBy, Array.getElem?_append_right hle, Array.getElem?_map,
      Option.map_eq_some_iff] at ho
    obtain ⟨own, hown, rfl⟩ := ho
    rw [Listing.Op.label?_relabel, Option.map_eq_some_iff] at hl
    obtain ⟨ownLabel, hlabel, rfl⟩ := hl
    have howned := (Lowering.Owned.start body).run body body.instructions.toList
    have hcreated := howned.ops own (Array.mem_toList_iff.mpr (Array.mem_of_getElem? hown)) ownLabel
      hlabel
    exact ⟨Nat.le_add_right _ _, Nat.add_lt_add_left hcreated _⟩

theorem exists_appended {place : Nat} (hle : listing.ops.size ≤ place)
    (hlt : place < (lowerAll bodies listing).ops.size) :
    ∃ index, Appended bodies listing index place := by
  induction bodies generalizing listing with
  | nil => exact absurd hlt (Nat.not_lt.mpr hle)
  | cons body rest ih =>
    by_cases hfirst : place < (body.lower listing).2.listing.ops.size
    · exact ⟨0, hle, hfirst⟩
    · obtain ⟨index, hp⟩ := ih (Nat.le_of_not_lt hfirst) hlt
      exact ⟨index + 1, hp⟩

/-- Of two bodies the earlier one has the smaller labels. -/
theorem index_eq_of_label {index index' place place' label : Nat} {op op' : Listing.Op}
    (hp : Appended bodies listing index place) (hp' : Appended bodies listing index' place')
    (ho : (lowerAll bodies listing).ops[place]? = some op)
    (ho' : (lowerAll bodies listing).ops[place']? = some op')
    (hl : op.label? = some label) (hl' : op'.label? = some label) : index = index' := by
  have hb := label_bounds hp ho hl
  have hb' := label_bounds hp' ho' hl'
  rcases Nat.lt_trichotomy index index' with h | h | h
  · have hle := (lowerAll_take_extends bodies listing (show index + 1 ≤ index' from h)).labels
    omega
  · exact h
  · have hle := (lowerAll_take_extends bodies listing (show index' + 1 ≤ index from h)).labels
    omega

/-- Bodies that are lowered one after another behind a listing keep apart. -/
structure KeptApart (bodies : List Body) (listing : Listing) : Prop where
  own_labels : ∀ (index place : Nat) (op : Listing.Op) (label : Nat),
    Appended bodies listing index place → (lowerAll bodies listing).ops[place]? = some op →
    op.label? = some label →
    (lowerAll (bodies.take index) listing).labels ≤ label ∧
      label < (lowerAll (bodies.take (index + 1)) listing).labels
  unshared : ∀ (index index' place place' : Nat) (op op' : Listing.Op) (label : Nat),
    index ≠ index' → Appended bodies listing index place →
    Appended bodies listing index' place' → (lowerAll bodies listing).ops[place]? = some op →
    (lowerAll bodies listing).ops[place']? = some op' → op.label? = some label →
    op'.label? ≠ some label
  jump_inside : ∀ (index place site : Nat) (op : Listing.Op) (label : Nat),
    Appended bodies listing index place → (lowerAll bodies listing).ops[place]? = some op →
    op.destination? = some label → listing.ops.size ≤ site →
    (lowerAll bodies listing).ops[site]? = some (.mark label) →
    Appended bodies listing index site

theorem keptApart (bodies : List Body) (listing : Listing) : KeptApart bodies listing where
  own_labels _ _ _ _ hp ho hl := label_bounds hp ho hl
  unshared _ _ _ _ _ _ _ hne hp hp' ho ho' hl hl' :=
    hne (index_eq_of_label hp hp' ho ho' hl hl')
  jump_inside index place site op label hp ho hd hle hs := by
    have hlt : site < (lowerAll bodies listing).ops.size := (Array.getElem?_eq_some_iff.mp hs).1
    obtain ⟨index', hp'⟩ := exists_appended hle hlt
    have heq := index_eq_of_label hp hp' ho hs (Listing.Op.label?_of_destination? hd) rfl
    rwa [heq]

/-- A body is lowered behind any listing with the same outcome as on its own, and appends the same
operations and labels, counted on from the labels of the listing; so bodies that are lowered one
after another share no label, and no jump of one goes to a mark of another. Labels are counted
without a bound here; a counter that wraps around would share them, see `Listing`. -/
theorem lower_relocated :
    (∀ (body : Body) (listing : Listing),
      (body.lower listing).1 = (body.lower .empty).1 ∧
        (body.lower listing).2.listing.ops = listing.ops ++
          (body.lower .empty).2.listing.ops.map (Listing.Op.relabel listing.labels) ∧
        (body.lower listing).2.listing.labels =
          listing.labels + (body.lower .empty).2.listing.labels) ∧
      ∀ (bodies : List Body) (listing : Listing), KeptApart bodies listing := by
  refine ⟨?_, keptApart⟩
  intro body listing
  rw [lower_eq_behind]
  exact ⟨rfl, rfl, rfl⟩

/-- A body that breaks off at a conditional, inside a block that it has branched out of, and a body
behind it with a block of its own. The label of the first block stays without a mark. -/
theorem lower_relocated_broken :
    ∃ broken whole, decode [0x02, 0x40, 0x0C, 0x00, 0x04, 0x40, 0x0B, 0x0B, 0x0B] 0 = .ok broken ∧
      decode [0x02, 0x40, 0x0C, 0x00, 0x0B, 0x0B] 0 = .ok whole ∧
      (broken.lower ⟨#[.ret], 3⟩).1 = .error (.unsupported (.enter .cond)) ∧
      lowerAll [broken, whole] ⟨#[.ret], 3⟩ = ⟨#[.ret, .jump 3, .jump 4, .mark 4, .ret], 5⟩ ∧
      KeptApart [broken, whole] ⟨#[.ret], 3⟩ := by
  let broken : Body :=
    ⟨#[⟨.enter .block .empty 0, 0, 2⟩, ⟨.br ⟨0, 0⟩, 2, 2⟩, ⟨.enter .cond .empty 1, 4, 2⟩,
        ⟨.close (some 1), 6, 1⟩, ⟨.close (some 0), 7, 1⟩, ⟨.close none, 8, 1⟩],
      #[⟨.block, .empty, 0, none, some 4⟩, ⟨.cond, .empty, 2, none, some 3⟩], 0, false⟩
  let whole : Body :=
    ⟨#[⟨.enter .block .empty 0, 0, 2⟩, ⟨.br ⟨0, 0⟩, 2, 2⟩, ⟨.close (some 0), 4, 1⟩,
        ⟨.close none, 5, 1⟩], #[⟨.block, .empty, 0, none, some 2⟩], 0, false⟩
  exact ⟨broken, whole, by decide +kernel, by decide +kernel, by decide +kernel, by decide +kernel,
    lower_relocated.2 _ _⟩

end Body

end FlatWasm
