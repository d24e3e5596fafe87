import FlatWasm.Lowering
import FlatWasm.Proofs.Resolution

/-!
# Lowering, instruction by instruction

What an instruction is lowered to depends on the state of the lowering only through the labels that
its blocks were given. In a body whose labels number the blocks as they open, these are the same
numbers behind the labels that the listing held before, so each instruction can be lowered on its
own: `ops?` says to what. A body that is lowered with success appends these operations, in order.
-/

namespace FlatWasm

/-- The label that an operation may jump to. -/
def Listing.Op.destination? : Listing.Op → Option Nat
  | .jump label | .jumpIf label => some label
  | _ => none

namespace Lowering

/-- The operations of an instruction, when the labels of the blocks are numbered from `base` on. -/
def ops? (body : Body) (base : Nat) : Labelled → Option (List Listing.Op)
  | .plain plain => plainOps? body.params plain
  | .enter .block _ _ => some []
  | .enter .loop _ label => some [.mark (base + label)]
  | .close none => some [.ret]
  | .close (some label) =>
    match body.blocks[label]?.map Block.kind with
    | some .loop => some [.jump (base + label)]
    | some .block => some [.mark (base + label)]
    | _ => none
  | .br target => some [.jump (base + target.label)]
  | .brIf target => some [.jumpIf (base + target.label)]
  | .enter .cond _ _ | .otherwise _ | .brTable _ _ => none

/-- The operations of an instruction, none if it is unsupported. -/
def ops (body : Body) (base : Nat) (labelled : Labelled) : List Listing.Op :=
  (ops? body base labelled).getD []

/-- The number of operations that the instructions before an index are lowered to. -/
def opsBefore (body : Body) (base : Nat) (code : List Labelled) (index : Nat) : Nat :=
  ((code.take index).flatMap (ops body base)).length

section

variable {body : Body} {base : Nat} {labelled : Labelled} {op : Listing.Op}

/-- The operations of an instruction stand behind those of the instructions before it. -/
theorem getElem?_flatMap_ops {code : List Labelled} {index : Nat}
    (hc : code[index]? = some labelled) (offset : Nat)
    (ho : offset < (ops body base labelled).length) :
    (code.flatMap (ops body base))[opsBefore body base code index + offset]? =
      (ops body base labelled)[offset]? := by
  obtain ⟨hlt, rfl⟩ := List.getElem?_eq_some_iff.mp hc
  have hsplit : code.flatMap (ops body base) = (code.take index).flatMap (ops body base) ++
      (ops body base code[index] ++ (code.drop (index + 1)).flatMap (ops body base)) := by
    rw [← List.flatMap_cons, ← List.drop_eq_getElem_cons hlt, ← List.flatMap_append,
      List.take_append_drop]
  rw [hsplit, opsBefore, List.getElem?_append_right (Nat.le_add_right _ _),
    Nat.add_sub_cancel_left, List.getElem?_append_left ho]

theorem opsBefore_succ {code : List Labelled} {index : Nat} (hc : code[index]? = some labelled) :
    opsBefore body base code (index + 1) =
      opsBefore body base code index + (ops body base labelled).length := by
  rw [opsBefore, opsBefore, List.take_add_one, hc, List.flatMap_append, List.length_append,
    Option.toList_some, List.flatMap_singleton]

/-- An instruction that names no block is lowered to operations without labels. -/
theorem mem_ops_plain {plain : Plain} (h : op ∈ ops body base (.plain plain)) :
    op.destination? = none ∧ ∀ label, op ≠ .mark label := by
  cases plain with
  | «variable» kind index =>
    cases kind <;> simp only [ops, ops?, plainOps?, Option.getD_some, Option.getD_none,
      List.mem_cons, List.not_mem_nil, or_false] at h
    case teeLocal =>
      rcases h with rfl | rfl <;> exact ⟨rfl, by simp⟩
    all_goals
      subst h
      exact ⟨rfl, by simp⟩
  | numeric operator =>
    cases hp : operator.primitive? with
    | none => simp [ops, ops?, plainOps?, hp] at h
    | some primitive =>
      simp only [ops, ops?, plainOps?, hp, Option.map_some, Option.getD_some,
        List.mem_singleton] at h
      subst h
      exact ⟨rfl, by simp⟩
  | nop => simp [ops, ops?, plainOps?] at h
  | unreachable | ret | const value =>
    simp only [ops, ops?, plainOps?, Option.getD_some, List.mem_singleton] at h
    subst h
    exact ⟨rfl, by simp⟩
  | _ => simp [ops, ops?, plainOps?] at h

/-- A label is marked by the opening of its loop, or by the end of its block. -/
theorem mark_mem_ops {label : Label} (h : .mark (base + label) ∈ ops body base labelled) :
    (∃ type, labelled = .enter .loop type label) ∨
      labelled = .close (some label) ∧ body.blocks[label]?.map Block.kind = some .block := by
  cases labelled with
  | plain plain => exact absurd rfl ((mem_ops_plain h).2 _)
  | enter kind type other => cases kind <;> simp_all [ops, ops?]
  | close other =>
    cases other with
    | none => simp [ops, ops?] at h
    | some other =>
      rw [ops, ops?] at h
      split at h <;> simp_all
  | _ => simp [ops, ops?] at h

/-- Jumps go to the targets of a branch, or from the end of a loop to the loop. -/
theorem destination_mem_ops (h : op ∈ ops body base labelled) {target : Nat}
    (hd : op.destination? = some target) :
    ∃ label, target = base + label ∧ ((∃ own ∈ labelled.targets, own.label = label) ∨
      labelled = .close (some label) ∧ body.blocks[label]?.map Block.kind = some .loop) := by
  cases labelled with
  | plain plain =>
    rw [(mem_ops_plain h).1] at hd
    cases hd
  | enter kind type other =>
    cases kind <;> simp only [ops, ops?, Option.getD_some, Option.getD_none, List.mem_singleton,
      List.not_mem_nil] at h
    subst h
    cases hd
  | otherwise label => simp [ops, ops?] at h
  | close other =>
    cases other with
    | none =>
      obtain rfl := List.mem_singleton.mp h
      cases hd
    | some other =>
      rw [ops, ops?] at h
      split at h
      · next hk =>
        obtain rfl := List.mem_singleton.mp h
        cases hd
        exact ⟨other, rfl, .inr ⟨rfl, hk⟩⟩
      · obtain rfl := List.mem_singleton.mp h
        cases hd
      · simp at h
  | br own =>
    obtain rfl := List.mem_singleton.mp h
    cases hd
    exact ⟨own.label, rfl, .inl ⟨own, List.mem_cons_self, rfl⟩⟩
  | brIf own =>
    obtain rfl := List.mem_singleton.mp h
    cases hd
    exact ⟨own.label, rfl, .inl ⟨own, List.mem_cons_self, rfl⟩⟩
  | brTable targets default => simp [ops, ops?] at h

end

/-- What is true of the state behind the instructions `done`, lowered behind `listing`. -/
structure InSync (body : Body) (listing : Listing) (done : List Labelled) (state : Lowering) :
    Prop where
  ops_eq : state.listing.ops.toList =
    listing.ops.toList ++ done.flatMap (ops body listing.labels)
  labels_eq : state.listing.labels = listing.labels + (openedLabels done).length
  target_eq : ∀ (label : Label) target, state.targets[label]? = some (some target) →
    target = listing.labels + label

variable {body : Body} {listing : Listing} {done : List Labelled} {state next : Lowering}
  {labelled : Labelled}

theorem target_ok {label : Label} {target : Nat} (h : state.target label = .ok target) :
    state.targets[label]? = some (some target) := by
  unfold Lowering.target at h
  split at h
  · next ht =>
    cases h
    exact ht
  · cases h

/-- A jump is formed only to a block that was given a label. -/
theorem map_ok {label : Label} {op : Nat → Listing.Op} {emitted : Listing.Op}
    (h : (state.target label).map op = .ok emitted) :
    ∃ target, state.targets[label]? = some (some target) ∧ emitted = op target := by
  cases ht : state.target label with
  | error error =>
    rw [ht] at h
    cases h
  | ok target =>
    rw [ht] at h
    cases h
    exact ⟨target, target_ok ht, rfl⟩

theorem closing_ok {label : Label} {emitted : Listing.Op}
    (h : closing body state label = .ok emitted) :
    ∃ target, state.targets[label]? = some (some target) ∧
      (body.blocks[label]?.map Block.kind = some .loop ∧ emitted = .jump target ∨
        body.blocks[label]?.map Block.kind = some .block ∧ emitted = .mark target) := by
  unfold closing at h
  cases ht : state.target label with
  | error error =>
    rw [ht] at h
    cases h
  | ok target =>
    rw [ht] at h
    refine ⟨target, target_ok ht, ?_⟩
    cases hb : body.blocks[label]? with
    | none =>
      simp only [hb] at h
      cases h
    | some block =>
      obtain ⟨kind, type, start, elseAt, endAt⟩ := block
      simp only [hb] at h
      cases kind with
      | loop =>
        cases h
        exact .inl ⟨rfl, rfl⟩
      | block =>
        cases h
        exact .inr ⟨rfl, rfl⟩
      | cond => cases h

theorem emitOne_ok {op : Except LoweringError Listing.Op} (h : state.emitOne op = (.ok (), next)) :
    ∃ emitted, op = .ok emitted ∧
      next = { state with listing := state.listing.emitAll [emitted] } := by
  cases op with
  | error error => cases h
  | ok emitted =>
    cases h
    exact ⟨emitted, rfl, rfl⟩

namespace InSync

theorem start (body : Body) (listing : Listing) : InSync body listing [] (.start body listing) := by
  refine ⟨by simp [Lowering.start], rfl, ?_⟩
  intro label target h
  simp [Lowering.start, Array.getElem?_replicate] at h

theorem emitAll (s : InSync body listing done state) {emitted : List Listing.Op}
    (ho : ops? body listing.labels labelled = some emitted) (hl : labelled.opens = none) :
    (ops? body listing.labels labelled).isSome ∧ InSync body listing (done ++ [labelled])
      { state with listing := state.listing.emitAll emitted } := by
  refine ⟨by rw [ho]; rfl, ?_, ?_, s.target_eq⟩
  · simp [Listing.emitAll, s.ops_eq, ops, ho]
  · have hn : openedLabels [labelled] = [] := by simp [openedLabels, hl]
    rw [openedLabels_append, hn, List.append_nil]
    exact s.labels_eq

/-- A block takes the next label of the listing. -/
theorem bind (s : InSync body listing done state) {kind : BlockKind} {type : BlockType}
    {label : Label} {emitted : List Listing.Op}
    (hn : (openedLabels done).length = label)
    (ho : ops? body listing.labels (.enter kind type label) = some emitted)
    (h : Lowering.bind label state.listing.labels { state with listing :=
      ⟨state.listing.ops ++ emitted, state.listing.labels + 1⟩ } = (.ok (), next)) :
    InSync body listing (done ++ [.enter kind type label]) next := by
  unfold Lowering.bind at h
  split at h
  · cases h
    refine ⟨?_, ?_, ?_⟩
    · simp [s.ops_eq, ops, ho]
    · have h1 : openedLabels [.enter kind type label] = [label] := rfl
      rw [openedLabels_append, h1, List.length_append, List.length_singleton]
      exact congrArg (· + 1) s.labels_eq
    · intro other target ht
      rw [Array.getElem?_setIfInBounds] at ht
      split at ht
      · next heq =>
        cases ht
        rw [s.labels_eq, hn, heq]
      · exact s.target_eq other target ht
  · cases h

/-- One instruction that is lowered emits its own operations. -/
theorem step (s : InSync body listing done state)
    (hn : ∀ label, openedLabels [labelled] = [label] → (openedLabels done).length = label)
    (h : instruction body labelled state = (.ok (), next)) :
    (ops? body listing.labels labelled).isSome ∧ InSync body listing (done ++ [labelled]) next := by
  cases labelled with
  | plain plain =>
    rw [instruction] at h
    cases ho : plainOps? body.params plain with
    | none =>
      rw [ho] at h
      cases h
    | some emitted =>
      rw [ho] at h
      cases h
      exact s.emitAll ho rfl
  | enter kind type label =>
    cases kind with
    | block =>
      refine ⟨rfl, s.bind (hn label rfl) rfl ?_⟩
      rw [Array.appendList_nil]
      exact h
    | loop =>
      have hl : listing.labels + label = state.listing.labels := by
        rw [s.labels_eq, hn label rfl]
      refine ⟨rfl, s.bind (hn label rfl) rfl ?_⟩
      rw [Array.appendList_cons, Array.appendList_nil, hl]
      exact h
    | cond => cases h
  | otherwise label => cases h
  | close label =>
    cases label with
    | none =>
      cases h
      exact s.emitAll rfl rfl
    | some label =>
      obtain ⟨emitted, hop, rfl⟩ := emitOne_ok h
      obtain ⟨target, ht, hk⟩ := closing_ok hop
      obtain rfl := s.target_eq label target ht
      rcases hk with ⟨hk, rfl⟩ | ⟨hk, rfl⟩
      · exact s.emitAll (by simp only [ops?, hk]) rfl
      · exact s.emitAll (by simp only [ops?, hk]) rfl
  | br target =>
    obtain ⟨emitted, hop, rfl⟩ := emitOne_ok h
    obtain ⟨found, ht, rfl⟩ := map_ok hop
    obtain rfl := s.target_eq target.label found ht
    exact s.emitAll rfl rfl
  | brIf target =>
    obtain ⟨emitted, hop, rfl⟩ := emitOne_ok h
    obtain ⟨found, ht, rfl⟩ := map_ok hop
    obtain rfl := s.target_eq target.label found ht
    exact s.emitAll rfl rfl
  | brTable targets default => cases h

end InSync

theorem length_eq_of_range {front back : List Label} {label : Label} {count : Nat}
    (h : front ++ [label] ++ back = List.range count) : front.length = label := by
  have hlength := congrArg List.length h
  simp only [List.length_append, List.length_singleton, List.length_range] at hlength
  have hat : (front ++ [label] ++ back)[front.length]? = some label := by simp
  rw [h, List.getElem?_range (by omega)] at hat
  exact Option.some.inj hat

/-- Instructions lowered one after another emit their own operations, if their labels number the
blocks as they open. -/
theorem InSync.run {rest : List Placed} {count : Nat} (s : InSync body listing done state)
    (hn : openedLabels (done ++ rest.map Placed.labelled) = List.range count)
    (h : Lowering.run body rest state = (.ok (), next)) :
    (∀ placed ∈ rest, (ops? body listing.labels placed.labelled).isSome) ∧
      InSync body listing (done ++ rest.map Placed.labelled) next := by
  induction rest generalizing done state with
  | nil =>
    cases h
    exact ⟨by simp, by simpa using s⟩
  | cons placed rest ih =>
    rw [Lowering.run] at h
    rcases hi : instruction body placed.labelled state with ⟨_ | _, after⟩ <;> rw [hi] at h
    · cases h
    -- as many labels were created as blocks were opened, so the next has the number of this block
    have hfirst : ∀ label, openedLabels [placed.labelled] = [label] →
        (openedLabels done).length = label := by
      intro label hl
      rw [List.map_cons, List.append_cons, openedLabels_append, openedLabels_append, hl] at hn
      exact length_eq_of_range hn
    obtain ⟨hsome, hafter⟩ := s.step hfirst hi
    rw [List.map_cons, List.append_cons] at hn ⊢
    have hsync : InSync body listing (done ++ [placed.labelled])
        { after with lowered := after.lowered + 1 } :=
      ⟨hafter.ops_eq, hafter.labels_eq, hafter.target_eq⟩
    obtain ⟨hall, hnext⟩ := ih hsync hn h
    exact ⟨List.forall_mem_cons.mpr ⟨hsome, hall⟩, hnext⟩

theorem run_append (body : Body) (front back : List Placed) (state : Lowering) :
    Lowering.run body (front ++ back) state =
      match Lowering.run body front state with
      | (.ok _, middle) => Lowering.run body back middle
      | (.error error, middle) => (.error error, middle) := by
  induction front generalizing state with
  | nil => rfl
  | cons placed front ih =>
    rw [List.cons_append, Lowering.run, Lowering.run]
    rcases instruction body placed.labelled state with ⟨_ | _, after⟩
    · rfl
    · exact ih _

/-- Lowering the first instructions of a body emits their own operations. -/
theorem InSync.run_front {front back : List Placed} {count : Nat}
    (hn : openedLabels ((front ++ back).map Placed.labelled) = List.range count)
    (h : Lowering.run body front (.start body listing) = (.ok (), next)) :
    InSync body listing (front.map Placed.labelled) next := by
  rw [List.map_append, openedLabels_append] at hn
  have htake := congrArg (List.take (openedLabels (front.map Placed.labelled)).length) hn
  rw [List.take_left, List.take_range] at htake
  exact ((InSync.start body listing).run htake h).2

/-- The instructions before an index have emitted their own operations when it is lowered. -/
theorem InSync.run_take {whole : List Placed} {count : Nat}
    (hn : openedLabels (whole.map Placed.labelled) = List.range count)
    (h : Lowering.run body whole (.start body listing) = (.ok (), next)) (index : Nat) :
    InSync body listing ((whole.take index).map Placed.labelled)
      (Lowering.run body (whole.take index) (.start body listing)).2 := by
  rw [← List.take_append_drop index whole] at hn
  rw [← List.take_append_drop index whole, run_append] at h
  rcases hr : Lowering.run body (whole.take index) (.start body listing) with ⟨_ | _, middle⟩ <;>
    rw [hr] at h
  · cases h
  · exact InSync.run_front hn hr

end Lowering

namespace Body

/-- The size of the listing at the moment when the instruction at an index is lowered, that is, the
place that its first operation is about to get. -/
def place (body : Body) (listing : Listing) (index : Nat) : Nat :=
  (Lowering.run body (body.instructions.toList.take index)
    (.start body listing)).2.listing.ops.size

/-- The place of an instruction lies behind what the listing held before and the operations of the
instructions before it. -/
theorem place_eq {body : Body} {listing : Listing} {state : Lowering} {count : Nat}
    (hn : openedLabels body.code = List.range count)
    (hl : body.lower listing = (.ok (), state)) (index : Nat) :
    body.place listing index =
      listing.ops.size + Lowering.opsBefore body listing.labels body.code index := by
  rw [place, ← Array.length_toList, (Lowering.InSync.run_take hn hl index).ops_eq,
    List.length_append, Array.length_toList, Lowering.opsBefore, code, ← List.map_take]

end Body

end FlatWasm
