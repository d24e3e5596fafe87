import FlatWasm.Proofs.Resolution

/-!
# Bodies as trees

The flat instructions of a function are the traversal of a tree, in which a block stands with its
contents and a branch stands in the blocks it may leave. `Tree` is that grammar, and says nothing
of bytes, labels or indices. A function body is read from the written form of every tree within the
limits, and whatever body is read is the traversal of one tree and no other.
-/

namespace FlatWasm

/-- An instruction that is no part of a block's frame. -/
inductive Leaf where
  | plain (instruction : Plain)
  | br (depth : UInt32)
  | brIf (depth : UInt32)
  | brTable (depths : List UInt32) (default : UInt32)
deriving DecidableEq

/-- A sequence of leaves and blocks: each constructor but the first is an item and what comes after
it. A choice is a condition with an alternative. -/
inductive Tree where
  | done
  | leaf (item : Leaf) (next : Tree)
  | block (kind : BlockKind) (type : BlockType) (inner next : Tree)
  | choice (type : BlockType) (inner alternative next : Tree)
deriving DecidableEq

namespace Leaf

/-- Every depth names one of the enclosing blocks, and a table is not too long. -/
def Fits (enclosing : Nat) : Leaf → Prop
  | .plain _ => True
  | .br depth | .brIf depth => depth.toNat < enclosing
  | .brTable depths default => depths.length ≤ maxBranchTargets ∧
      (∀ depth ∈ depths, depth.toNat < enclosing) ∧ default.toNat < enclosing

instance (enclosing : Nat) (leaf : Leaf) : Decidable (leaf.Fits enclosing) :=
  match leaf with
  | .plain _ => inferInstanceAs (Decidable True)
  | .br depth | .brIf depth => inferInstanceAs (Decidable (depth.toNat < enclosing))
  | .brTable depths default =>
    have := List.decidableBAll (fun depth : UInt32 => depth.toNat < enclosing) depths
    inferInstanceAs (Decidable (depths.length ≤ maxBranchTargets ∧
      (∀ depth ∈ depths, depth.toNat < enclosing) ∧ default.toNat < enclosing))

/-- The block that a depth names, out of the enclosing ones, the innermost first. -/
def target (scope : List Label) (depth : UInt32) : Target := ⟨depth, scope.getD depth.toNat 0⟩

def labelled (scope : List Label) : Leaf → Labelled
  | .plain instruction => .plain instruction
  | .br depth => .br (target scope depth)
  | .brIf depth => .brIf (target scope depth)
  | .brTable depths default => .brTable (depths.map (target scope)) (target scope default)

end Leaf

namespace Tree

/-- The number of blocks. -/
def blockCount : Tree → Nat
  | .done => 0
  | .leaf _ next => next.blockCount
  | .block _ _ inner next => 1 + inner.blockCount + next.blockCount
  | .choice _ inner alternative next =>
    1 + inner.blockCount + alternative.blockCount + next.blockCount

/-- The tree keeps within the limits, inside so many blocks. -/
def Fits (enclosing : Nat) : Tree → Prop
  | .done => True
  | .leaf item next => item.Fits enclosing ∧ next.Fits enclosing
  | .block _ _ inner next =>
    enclosing < maxNesting ∧ inner.Fits (enclosing + 1) ∧ next.Fits enclosing
  | .choice _ inner alternative next =>
    enclosing < maxNesting ∧ inner.Fits (enclosing + 1) ∧ alternative.Fits (enclosing + 1) ∧
      next.Fits enclosing

def decidableFits (enclosing : Nat) : (tree : Tree) → Decidable (tree.Fits enclosing)
  | .done => inferInstanceAs (Decidable True)
  | .leaf item next =>
    have := decidableFits enclosing next
    inferInstanceAs (Decidable (item.Fits enclosing ∧ next.Fits enclosing))
  | .block _ _ inner next =>
    have := decidableFits (enclosing + 1) inner
    have := decidableFits enclosing next
    inferInstanceAs
      (Decidable (enclosing < maxNesting ∧ inner.Fits (enclosing + 1) ∧ next.Fits enclosing))
  | .choice _ inner alternative next =>
    have := decidableFits (enclosing + 1) inner
    have := decidableFits (enclosing + 1) alternative
    have := decidableFits enclosing next
    inferInstanceAs (Decidable (enclosing < maxNesting ∧ inner.Fits (enclosing + 1) ∧
      alternative.Fits (enclosing + 1) ∧ next.Fits enclosing))

instance (enclosing : Nat) (tree : Tree) : Decidable (tree.Fits enclosing) :=
  decidableFits enclosing tree

/-- The traversal of a tree inside the blocks of `scope`. Blocks are numbered as they open, from
`label` on, and the instructions of a block's frame carry its number. -/
def flatten (scope : List Label) (label : Label) : Tree → List Labelled
  | .done => []
  | .leaf item next => item.labelled scope :: next.flatten scope label
  | .block kind type inner next =>
    .enter kind type label :: inner.flatten (label :: scope) (label + 1) ++
      .close (some label) :: next.flatten scope (label + 1 + inner.blockCount)
  | .choice type inner alternative next =>
    .enter .cond type label :: inner.flatten (label :: scope) (label + 1) ++
      .otherwise label :: alternative.flatten (label :: scope) (label + 1 + inner.blockCount) ++
        .close (some label) ::
          next.flatten scope (label + 1 + inner.blockCount + alternative.blockCount)

/-- The instructions of a function: its tree, and an end that closes no block. -/
def code (tree : Tree) : List Labelled := tree.flatten [] 0 ++ [.close none]

/-- The written form of a function. -/
def encode (tree : Tree) : List UInt8 := tree.code.flatMap Labelled.encode

end Tree

/-- Blocks are numbered in the order in which they open. -/
theorem openedLabels_flatten (tree : Tree) (scope : List Label) (label : Label) :
    openedLabels (tree.flatten scope label) = List.range' label tree.blockCount := by
  induction tree generalizing scope label with
  | done => rfl
  | leaf item next ih => cases item <;> exact ih scope label
  | block kind type inner next ihi ihn =>
    have hsum : 1 + inner.blockCount + next.blockCount =
        inner.blockCount + next.blockCount + 1 := by omega
    rw [Tree.flatten, openedLabels_append, Tree.blockCount, hsum, List.range'_succ,
      ← List.range'_append_1, ← ihi (label :: scope), ← ihn scope]
    rfl
  | choice type inner alternative next ihi iha ihn =>
    have hsum : 1 + inner.blockCount + alternative.blockCount + next.blockCount =
        inner.blockCount + alternative.blockCount + next.blockCount + 1 := by omega
    rw [Tree.flatten, openedLabels_append, openedLabels_append, Tree.blockCount, hsum,
      List.range'_succ, ← List.range'_append_1, ← List.range'_append_1, ← ihi (label :: scope),
      ← iha (label :: scope), ← Nat.add_assoc, ← ihn scope]
    rfl

/-! ## Traversals can be followed -/

namespace Control

variable {control : Control} {index : Nat} {scope : List Label}

theorem resolves_target (hs : control.openBlocks.map OpenBlock.label = scope) {depth : UInt32}
    (hd : depth.toNat < scope.length) : control.Resolves (Leaf.target scope depth) := by
  rw [Resolves, hs, Leaf.target, List.getD_eq_getElem?_getD, List.getElem?_eq_getElem hd]
  rfl

theorem step_leaf (hs : control.openBlocks.map OpenBlock.label = scope) {item : Leaf}
    (hf : item.Fits scope.length) : control.Step index (item.labelled scope) control := by
  cases item with
  | plain instruction => exact .plain instruction
  | br depth => exact .br _ (resolves_target hs hf)
  | brIf depth => exact .brIf _ (resolves_target hs hf)
  | brTable depths default =>
    refine .brTable _ _ ?_ (resolves_target hs hf.2.2)
    rw [List.forall_mem_map]
    exact fun depth hm => resolves_target hs (hf.2.1 depth hm)

end Control

/-- From any control state with these open blocks and the next label, the instructions can be
followed, open so many blocks and leave no other open than there were. -/
def Traverses (scope : List Label) (label : Label) (code : List Labelled) (count : Nat) : Prop :=
  ∀ (control : Control) (index : Nat), control.openBlocks.map OpenBlock.label = scope →
    control.blocks.size = label →
    ∃ final, control.Follows index code final ∧ final.openBlocks = control.openBlocks ∧
      final.blocks.size = label + count

namespace Traverses

variable {scope : List Label} {label : Label} {inner alternative rest : List Labelled}
  {count count₁ count₂ : Nat}

theorem nil : Traverses scope label [] 0 := fun control _ _ hl => ⟨control, rfl, rfl, hl⟩

theorem leaf {item : Leaf} (hf : item.Fits scope.length) (hr : Traverses scope label rest count) :
    Traverses scope label (item.labelled scope :: rest) count := by
  intro control index hs hl
  obtain ⟨final, hn, ho, hb⟩ := hr control (index + 1) hs hl
  exact ⟨final, ⟨control, Control.step_leaf hs hf, hn⟩, ho, hb⟩

theorem block {kind : BlockKind} {type : BlockType} (hn : scope.length < maxNesting)
    (hi : Traverses (label :: scope) (label + 1) inner count₁)
    (hr : Traverses scope (label + 1 + count₁) rest count) :
    Traverses scope label (.enter kind type label :: inner ++ .close (some label) :: rest)
      (1 + count₁ + count) := by
  intro control index hs hl
  subst hs hl
  obtain ⟨middle, hmid, ho, hb⟩ := hi (control.opened kind type index) (index + 1) rfl
    (Array.size_push ..)
  obtain ⟨final, hfol, ho', hb'⟩ := hr
    (middle.closed control.blocks.size control.openBlocks (index + 1 + inner.length))
    (index + 1 + inner.length + 1) rfl (Array.size_modify.trans hb)
  refine ⟨final, ⟨_, .enter kind type (by simpa [Control.openCount] using hn), ?_⟩, ho', by omega⟩
  exact Control.follows_append.mpr ⟨middle, hmid, _, .close _ _ ho, hfol⟩

theorem choice {type : BlockType} (hn : scope.length < maxNesting)
    (hi : Traverses (label :: scope) (label + 1) inner count₁)
    (ha : Traverses (label :: scope) (label + 1 + count₁) alternative count₂)
    (hr : Traverses scope (label + 1 + count₁ + count₂) rest count) :
    Traverses scope label (.enter .cond type label :: inner ++ .otherwise label :: alternative ++
      .close (some label) :: rest) (1 + count₁ + count₂ + count) := by
  intro control index hs hl
  subst hs hl
  obtain ⟨middle, hmid, ho, hb⟩ := hi (control.opened .cond type index) (index + 1) rfl
    (Array.size_push ..)
  obtain ⟨second, hsec, ho₂, hb₂⟩ := ha
    (middle.divided control.blocks.size control.openBlocks (index + 1 + inner.length))
    (index + 1 + inner.length + 1) rfl (Array.size_modify.trans hb)
  obtain ⟨final, hfol, ho', hb'⟩ := hr (second.closed control.blocks.size control.openBlocks
      (index + 1 + inner.length + 1 + alternative.length))
    (index + 1 + inner.length + 1 + alternative.length + 1) rfl (Array.size_modify.trans hb₂)
  rw [List.append_assoc]
  refine ⟨final, ⟨_, .enter .cond type (by simpa [Control.openCount] using hn), ?_⟩, ho', by omega⟩
  exact Control.follows_append.mpr ⟨middle, hmid, _, .otherwise _ _ ho,
    Control.follows_append.mpr ⟨second, hsec, _, .close _ _ ho₂, hfol⟩⟩

end Traverses

theorem Tree.Fits.traverses {tree : Tree} {scope : List Label} {label : Label}
    (hf : tree.Fits scope.length) :
    Traverses scope label (tree.flatten scope label) tree.blockCount := by
  induction tree generalizing scope label with
  | done => exact .nil
  | leaf item next ih => exact .leaf hf.1 (ih hf.2)
  | block kind type inner next ihi ihn =>
    obtain ⟨hn, hi, hr⟩ := hf
    exact .block hn (ihi hi) (ihn hr)
  | choice type inner alternative next ihi iha ihn =>
    obtain ⟨hn, hi, ha, hr⟩ := hf
    exact .choice hn (ihi hi) (iha ha) (ihn hr)

/-! ## What can be followed is a traversal -/

/-- The instructions are at an end, or go on with the end or the else of an enclosing block. -/
def Stops (code : List Labelled) : Prop :=
  ∀ labelled ∈ code.head?, labelled.instruction = .close ∨ labelled.instruction = .otherwise

namespace Control

variable {control next final : Control} {index : Nat} {labelled : Labelled}

theorem Resolves.eq_target {target : Target} (h : control.Resolves target) :
    target.depth.toNat < control.openBlocks.length ∧
      target = Leaf.target (control.openBlocks.map OpenBlock.label) target.depth := by
  obtain ⟨hlt, hl⟩ := List.getElem?_eq_some_iff.mp h
  rw [List.length_map] at hlt
  refine ⟨hlt, ?_⟩
  rw [Leaf.target, List.getD_eq_getElem?_getD, h]
  rfl

/-- A step opens a block, is one of a leaf, or belongs to a block that is open. -/
theorem Step.shape (hs : control.Step index labelled next)
    (he : labelled.instruction.Encodable) :
    (∃ kind type, labelled = .enter kind type control.blocks.size ∧
        control.openBlocks.length < maxNesting ∧ next = control.opened kind type index) ∨
      (∃ item : Leaf, labelled = item.labelled (control.openBlocks.map OpenBlock.label) ∧
        item.Fits control.openBlocks.length ∧ next = control) ∨
      (labelled.instruction = .close ∨ labelled.instruction = .otherwise) := by
  cases hs with
  | plain instruction => exact .inr (.inl ⟨.plain instruction, rfl, trivial, rfl⟩)
  | enter kind type nested => exact .inl ⟨kind, type, rfl, nested, rfl⟩
  | otherwise label outer innermost => exact .inr (.inr (.inr rfl))
  | close block outer innermost => exact .inr (.inr (.inl rfl))
  | finish empty => exact .inr (.inr (.inl rfl))
  | br target resolves =>
    obtain ⟨hlt, ht⟩ := resolves.eq_target
    exact .inr (.inl ⟨.br target.depth, by rw [Leaf.labelled, ← ht], hlt, rfl⟩)
  | brIf target resolves =>
    obtain ⟨hlt, ht⟩ := resolves.eq_target
    exact .inr (.inl ⟨.brIf target.depth, by rw [Leaf.labelled, ← ht], hlt, rfl⟩)
  | brTable targets default resolves default_resolves =>
    obtain ⟨hlt, ht⟩ := default_resolves.eq_target
    refine .inr (.inl ⟨.brTable (targets.map Target.depth) default.depth, ?_, ⟨he, ?_, hlt⟩, rfl⟩)
    · rw [Leaf.labelled, ← ht, List.map_map]
      congr 1
      have hid := List.map_congr_left fun target hm => ((resolves target hm).eq_target.2).symm
      exact (hid.trans targets.map_id).symm
    · rw [List.forall_mem_map]
      exact fun target hm => (resolves target hm).eq_target.1

/-- Inside a block, the instructions can stop only at its end, or at its else if it may have one. -/
theorem Follows.of_stops {code : List Labelled} {entry : OpenBlock} {outer : List OpenBlock}
    (hf : control.Follows index code final) (hs : Stops code) (he : final.openBlocks = [])
    (ho : control.openBlocks = entry :: outer) :
    (∃ rest, code = .close (some entry.label) :: rest ∧
        (control.closed entry.label outer index).Follows (index + 1) rest final) ∨
      (∃ rest, code = .otherwise entry.label :: rest ∧ entry.kind = .cond ∧ entry.hasElse = false ∧
        (control.divided entry.label outer index).Follows (index + 1) rest final) := by
  cases code with
  | nil =>
    rw [Follows] at hf
    rw [hf, he] at ho
    cases ho
  | cons labelled rest =>
    obtain ⟨next, hstep, hf⟩ := hf
    have hl := hs labelled rfl
    cases hstep with
    | otherwise label outer' innermost =>
      obtain ⟨rfl, rfl⟩ := List.cons.inj (ho.symm.trans innermost)
      exact .inr ⟨rest, rfl, rfl, rfl, hf⟩
    | close block outer' innermost =>
      obtain ⟨rfl, rfl⟩ := List.cons.inj (ho.symm.trans innermost)
      exact .inl ⟨rest, rfl, hf⟩
    | finish empty => simp [ho] at empty
    | _ => simp [Labelled.instruction] at hl

end Control

/-- The instructions begin with a traversal in which no more blocks are left open than there were,
and what comes after it stops. -/
structure Begins (control final : Control) (code : List Labelled) (tree : Tree)
    (rest : List Labelled) (middle : Control) (index : Nat) : Prop where
  fits : tree.Fits control.openBlocks.length
  code_eq : code =
    tree.flatten (control.openBlocks.map OpenBlock.label) control.blocks.size ++ rest
  stops : Stops rest
  follows : middle.Follows index rest final
  openBlocks_eq : middle.openBlocks = control.openBlocks
  size_eq : middle.blocks.size = control.blocks.size + tree.blockCount

namespace Begins

variable {control final middle middle₁ middle₂ : Control} {code code₁ code₂ rest : List Labelled}
  {tree inner alternative next : Tree} {kind : BlockKind} {type : BlockType}
  {index index₁ index₂ index₃ : Nat}

theorem done (hs : Stops code) (hf : control.Follows index code final) :
    Begins control final code .done code control index :=
  ⟨trivial, rfl, hs, hf, rfl, rfl⟩

theorem leaf {item : Leaf} (hi : item.Fits control.openBlocks.length)
    (hn : Begins control final code next rest middle index) :
    Begins control final (item.labelled (control.openBlocks.map OpenBlock.label) :: code)
      (.leaf item next) rest middle index :=
  ⟨⟨hi, hn.fits⟩, by rw [hn.code_eq]; rfl, hn.stops, hn.follows, hn.openBlocks_eq, hn.size_eq⟩

theorem block (hd : control.openBlocks.length < maxNesting)
    (hi : Begins (control.opened kind type index) final code inner
      (.close (some control.blocks.size) :: code₁) middle₁ index₁)
    (hn : Begins (middle₁.closed control.blocks.size control.openBlocks index₁) final code₁ next
      rest middle index₂) :
    Begins control final (.enter kind type control.blocks.size :: code)
      (.block kind type inner next) rest middle index₂ := by
  have hsize : (middle₁.closed control.blocks.size control.openBlocks index₁).blocks.size =
      control.blocks.size + 1 + inner.blockCount := by
    simpa [Control.closed, Control.opened] using hi.size_eq
  refine ⟨⟨hd, hi.fits, hn.fits⟩, ?_, hn.stops, hn.follows, hn.openBlocks_eq, ?_⟩
  · have hcode := hn.code_eq
    rw [hsize] at hcode
    rw [hi.code_eq, hcode]
    simp [Tree.flatten, Control.opened, Control.closed]
  · rw [hn.size_eq, hsize, Tree.blockCount]
    omega

theorem choice (hd : control.openBlocks.length < maxNesting)
    (hi : Begins (control.opened .cond type index) final code inner
      (.otherwise control.blocks.size :: code₁) middle₁ index₁)
    (ha : Begins (middle₁.divided control.blocks.size control.openBlocks index₁) final code₁
      alternative (.close (some control.blocks.size) :: code₂) middle₂ index₂)
    (hn : Begins (middle₂.closed control.blocks.size control.openBlocks index₂) final code₂ next
      rest middle index₃) :
    Begins control final (.enter .cond type control.blocks.size :: code)
      (.choice type inner alternative next) rest middle index₃ := by
  have hsize₁ : (middle₁.divided control.blocks.size control.openBlocks index₁).blocks.size =
      control.blocks.size + 1 + inner.blockCount := by
    simpa [Control.divided, Control.opened] using hi.size_eq
  have hsize₂ : (middle₂.closed control.blocks.size control.openBlocks index₂).blocks.size =
      control.blocks.size + 1 + inner.blockCount + alternative.blockCount := by
    rw [← hsize₁]
    simpa [Control.closed] using ha.size_eq
  refine ⟨⟨hd, hi.fits, ha.fits, hn.fits⟩, ?_, hn.stops, hn.follows, hn.openBlocks_eq, ?_⟩
  · have hcode₁ := ha.code_eq
    have hcode₂ := hn.code_eq
    rw [hsize₁] at hcode₁
    rw [hsize₂] at hcode₂
    rw [hi.code_eq, hcode₁, hcode₂]
    simp [Tree.flatten, Control.opened, Control.divided, Control.closed]
  · rw [hn.size_eq, hsize₂, Tree.blockCount]
    omega

theorem length_rest_le (h : Begins control final code tree rest middle index) :
    rest.length ≤ code.length := by
  rw [h.code_eq, List.length_append]
  omega

theorem mem_of_mem_rest (h : Begins control final code tree rest middle index) {labelled : Labelled}
    (hm : labelled ∈ rest) : labelled ∈ code := by
  rw [h.code_eq]
  exact List.mem_append_right _ hm

end Begins

/-- If no block is open at the end, the instructions begin with a traversal. -/
theorem Control.Follows.begins {control final : Control} {code : List Labelled} {index : Nat}
    (hf : control.Follows index code final) (he : final.openBlocks = [])
    (hall : ∀ labelled ∈ code, labelled.instruction.Encodable) :
    ∃ tree rest middle index, Begins control final code tree rest middle index := by
  -- on the length: what follows the contents of a block is shorter, but no tail of a known list
  induction hn : code.length using Nat.strong_induction_on generalizing control code index with
  | _ n ih =>
  subst hn
  cases code with
  | nil => exact ⟨_, _, _, _, .done (by simp [Stops]) hf⟩
  | cons labelled code =>
    have hwhole := hf
    obtain ⟨next, hstep, hf⟩ := hf
    obtain ⟨hfirst, hrest⟩ := List.forall_mem_cons.mp hall
    rcases hstep.shape hfirst with ⟨kind, type, rfl, hd, rfl⟩ | ⟨item, rfl, hi, rfl⟩ | hl
    -- the contents run up to the end or the else of the block that was opened
    · obtain ⟨inner, code₁, middle₁, index₁, hi⟩ := ih _ (Nat.lt_succ_self _) hf hrest rfl
      have hle := hi.length_rest_le
      rcases hi.follows.of_stops hi.stops he hi.openBlocks_eq with
        ⟨code₁, rfl, hf₁⟩ | ⟨code₁, rfl, hk, -, hf₁⟩
      · obtain ⟨next, rest, middle, index₂, hn⟩ := ih _
          (by simp only [List.length_cons] at hle ⊢; omega) hf₁
          (fun labelled hm => hrest labelled (hi.mem_of_mem_rest (List.mem_cons_of_mem _ hm))) rfl
        exact ⟨_, _, _, _, .block hd hi hn⟩
      · obtain rfl : kind = .cond := hk
        obtain ⟨alternative, code₂, middle₂, index₂, ha⟩ := ih _
          (by simp only [List.length_cons] at hle ⊢; omega) hf₁
          (fun labelled hm => hrest labelled (hi.mem_of_mem_rest (List.mem_cons_of_mem _ hm))) rfl
        have hle₂ := ha.length_rest_le
        rcases ha.follows.of_stops ha.stops he ha.openBlocks_eq with
          ⟨code₂, rfl, hf₂⟩ | ⟨code₂, -, -, helse, -⟩
        · obtain ⟨next, rest, middle, index₃, hn⟩ := ih _
            (by simp only [List.length_cons] at hle hle₂ ⊢; omega) hf₂
            (fun labelled hm => hrest labelled (hi.mem_of_mem_rest (List.mem_cons_of_mem _
              (ha.mem_of_mem_rest (List.mem_cons_of_mem _ hm))))) rfl
          exact ⟨_, _, _, _, .choice hd hi ha hn⟩
        -- a second else
        · cases helse
    · obtain ⟨tree, rest, middle, index', hn⟩ := ih _ (Nat.lt_succ_self _) hf hrest rfl
      exact ⟨_, _, _, _, .leaf hi hn⟩
    · exact ⟨_, _, _, _, .done (by simpa [Stops] using hl) hwhole⟩

/-! ## One tree for one traversal -/

theorem Leaf.labelled_injective (scope : List Label) : Function.Injective (labelled scope) := by
  intro item item' h
  replace h := congrArg Labelled.instruction h
  cases item <;> cases item' <;>
    simp_all [labelled, target, Labelled.instruction, Function.comp_def]

theorem stops_close (label : Option Label) (rest : List Labelled) :
    Stops (.close label :: rest) := by
  simp [Stops, Labelled.instruction]

theorem stops_otherwise (label : Label) (rest : List Labelled) :
    Stops (.otherwise label :: rest) := by
  simp [Stops, Labelled.instruction]

theorem Stops.eq_done {tree : Tree} {scope : List Label} {label : Label}
    {code rest : List Labelled} (hs : Stops code) (h : code = tree.flatten scope label ++ rest) :
    tree = .done := by
  subst h
  cases tree with
  | done => rfl
  | leaf item next =>
    cases item <;> simp [Stops, Tree.flatten, Leaf.labelled, Labelled.instruction] at hs
  | block kind type inner next => simp [Stops, Tree.flatten, Labelled.instruction] at hs
  | choice type inner alternative next => simp [Stops, Tree.flatten, Labelled.instruction] at hs

/-- A traversal can be told from what stops after it. -/
theorem Tree.flatten_append_injective {tree tree' : Tree} {scope : List Label} {label : Label}
    {rest rest' : List Labelled} (hs : Stops rest) (hs' : Stops rest')
    (h : tree.flatten scope label ++ rest = tree'.flatten scope label ++ rest') :
    tree = tree' ∧ rest = rest' := by
  induction tree generalizing tree' scope label rest rest' with
  | done =>
    obtain rfl := hs.eq_done h
    exact ⟨rfl, h⟩
  | leaf item next ih =>
    cases tree' with
    | done => cases hs'.eq_done h.symm
    | leaf item' next' =>
      obtain ⟨hitem, htail⟩ := List.cons.inj h
      obtain ⟨rfl, rfl⟩ := ih hs hs' htail
      exact ⟨by rw [Leaf.labelled_injective scope hitem], rfl⟩
    | block kind' type' inner' next' => cases item <;> cases h
    | choice type' inner' alternative' next' => cases item <;> cases h
  | block kind type inner next ihi ihn =>
    cases tree' with
    | done => cases hs'.eq_done h.symm
    | leaf item' next' => cases item' <;> cases h
    | block kind' type' inner' next' =>
      rw [flatten, flatten, List.append_assoc, List.append_assoc] at h
      obtain ⟨hopen, hinner⟩ := List.cons.inj h
      cases hopen
      obtain ⟨rfl, hrest⟩ := ihi (stops_close _ _) (stops_close _ _) hinner
      obtain ⟨rfl, rfl⟩ := ihn hs hs' (List.cons.inj hrest).2
      exact ⟨rfl, rfl⟩
    | choice type' inner' alternative' next' =>
      rw [flatten, flatten, List.append_assoc, List.append_assoc, List.append_assoc] at h
      obtain ⟨-, hinner⟩ := List.cons.inj h
      cases (ihi (stops_close _ _) (stops_otherwise _ _) hinner).2
  | choice type inner alternative next ihi iha ihn =>
    cases tree' with
    | done => cases hs'.eq_done h.symm
    | leaf item' next' => cases item' <;> cases h
    | block kind' type' inner' next' =>
      rw [flatten, flatten, List.append_assoc, List.append_assoc, List.append_assoc] at h
      obtain ⟨-, hinner⟩ := List.cons.inj h
      cases (ihi (stops_otherwise _ _) (stops_close _ _) hinner).2
    | choice type' inner' alternative' next' =>
      rw [flatten, flatten, List.append_assoc, List.append_assoc, List.append_assoc,
        List.append_assoc] at h
      obtain ⟨hopen, hinner⟩ := List.cons.inj h
      cases hopen
      obtain ⟨rfl, hrest⟩ := ihi (stops_otherwise _ _) (stops_otherwise _ _) hinner
      have halt := (List.cons.inj hrest).2
      obtain ⟨rfl, hrest⟩ := iha (stops_close _ _) (stops_close _ _) halt
      obtain ⟨rfl, rfl⟩ := ihn hs hs' (List.cons.inj hrest).2
      exact ⟨rfl, rfl⟩

/-! ## Functions are trees -/

theorem Tree.close_none_notMem_flatten (tree : Tree) (scope : List Label) (label : Label) :
    .close none ∉ tree.flatten scope label := by
  induction tree generalizing scope label with
  | done => simp [flatten]
  | leaf item next ih => cases item <;> simp [flatten, Leaf.labelled, ih]
  | block kind type inner next ihi ihn => simp [flatten, ihi, ihn]
  | choice type inner alternative next ihi iha ihn => simp [flatten, ihi, iha, ihn]

theorem Tree.Fits.encodable {tree : Tree} {enclosing : Nat} (hf : tree.Fits enclosing)
    (scope : List Label) (label : Label) :
    ∀ labelled ∈ tree.flatten scope label, labelled.instruction.Encodable := by
  induction tree generalizing enclosing scope label with
  | done => simp [flatten]
  | leaf item next ih =>
    refine List.forall_mem_cons.mpr ⟨?_, ih hf.2 scope label⟩
    cases item with
    | brTable depths default =>
      simpa [Leaf.labelled, Labelled.instruction] using hf.1.1
    | _ => trivial
  | block kind type inner next ihi ihn =>
    obtain ⟨-, hi, hn⟩ := hf
    simp only [flatten, List.cons_append, List.forall_mem_cons, List.forall_mem_append]
    exact ⟨trivial, ihi hi _ _, trivial, ihn hn _ _⟩
  | choice type inner alternative next ihi iha ihn =>
    obtain ⟨-, hi, ha, hn⟩ := hf
    simp only [flatten, List.cons_append, List.append_assoc, List.forall_mem_cons,
      List.forall_mem_append]
    exact ⟨trivial, ihi hi _ _, trivial, iha ha _ _, trivial, ihn hn _ _⟩

namespace Body

theorem decode_of_fits {tree : Tree} (hf : tree.Fits 0) (params : UInt32)
    (hsize : tree.encode.length ≤ maxBodySize) :
    ∃ body, decode tree.encode params = .ok body ∧ body.code = tree.code := by
  obtain ⟨middle, hfol, ho, -⟩ := @Tree.Fits.traverses tree [] 0 hf .empty 0 rfl rfl
  obtain ⟨chunks, hc, hi⟩ := @Chunk.exists_of_encodable tree.code (by
    rw [Tree.code, List.forall_mem_append]
    exact ⟨hf.encodable _ _, List.forall_mem_singleton.mpr trivial⟩)
  let body : Body := ⟨(Chunk.place 0 chunks).toArray, middle.blocks, params, false⟩
  refine ⟨body, decode_ok_iff.mpr ⟨rfl, rfl, chunks, { middle with depth := middle.depth - 1 },
    tree.flatten [] 0, hi.symm, ?_, hc, tree.close_none_notMem_flatten _ _, ?_, by simp [body],
    rfl⟩, ?_⟩
  · rw [hc, Tree.code, Control.follows_append]
    exact ⟨middle, hfol, _, .finish ho, rfl⟩
  · omega
  · rw [← hc, ← Chunk.place_labelled 0]
    simp [body, code]

theorem exists_tree_of_decode {bytes : List UInt8} {params : UInt32} {body : Body}
    (h : decode bytes params = .ok body) : ∃ tree : Tree, tree.Fits 0 ∧ body.code = tree.code := by
  obtain ⟨-, -, chunks, control, front, rfl, hfol, hcode, hn, -, hins, -⟩ := decode_ok_iff.mp h
  rw [code, hins, Chunk.place_labelled]
  have hall : ∀ labelled ∈ Chunk.code chunks, labelled.instruction.Encodable := by
    rw [Chunk.code, List.forall_mem_map]
    exact fun chunk _ => chunk.spelled.encodable
  have hempty : control.openBlocks = [] := by
    rw [hcode] at hfol
    exact hfol.openBlocks_eq_nil
  obtain ⟨tree, rest, middle, index, hb⟩ := hfol.begins hempty hall
  refine ⟨tree, hb.fits, ?_⟩
  have hsplit : front ++ [.close none] = tree.flatten [] 0 ++ rest := hcode.symm.trans hb.code_eq
  cases rest with
  | nil =>
    have hm : Labelled.close none ∈ tree.flatten [] 0 := by
      rw [← List.append_nil (tree.flatten [] 0), ← hsplit]
      simp
    exact absurd hm (tree.close_none_notMem_flatten [] 0)
  | cons labelled rest =>
    obtain ⟨next, hs, -⟩ := hb.follows
    have hl := hb.stops labelled rfl
    have ho : middle.openBlocks = [] := hb.openBlocks_eq
    cases hs with
    | finish empty =>
      obtain ⟨rfl, -, rfl⟩ := (List.append_cons_inj_of_notMem hn List.not_mem_nil).mp hsplit
      exact hcode
    | otherwise label outer innermost => simp [ho] at innermost
    | close block outer innermost => simp [ho] at innermost
    | _ => simp [Labelled.instruction] at hl

/-- Functions are read from the written forms of trees within the limits, with their labels in the
order of the openings; and every function that is read is the traversal of exactly one such tree. -/
theorem decode_exactly_trees (params : UInt32) :
    (∀ tree : Tree, tree.Fits 0 → tree.encode.length ≤ maxBodySize →
      ∃ body, decode tree.encode params = .ok body ∧ body.code = tree.code ∧
        openedLabels body.code = List.range tree.blockCount) ∧
    ∀ bytes body, decode bytes params = .ok body →
      ∃! tree : Tree, tree.Fits 0 ∧ body.code = tree.code := by
  constructor
  · intro tree hf hsize
    obtain ⟨body, hd, hc⟩ := decode_of_fits hf params hsize
    refine ⟨body, hd, hc, ?_⟩
    rw [hc, Tree.code, openedLabels_append, openedLabels_flatten, List.range_eq_range']
    exact List.append_nil _
  · intro bytes body h
    obtain ⟨tree, hf, hc⟩ := exists_tree_of_decode h
    refine ⟨tree, ⟨hf, hc⟩, ?_⟩
    rintro tree' ⟨-, hc'⟩
    exact (Tree.flatten_append_injective (stops_close _ _) (stops_close _ _)
      (hc'.symm.trans hc)).1

/-- A loop with a condition in it, whose alternative holds a table; then a block of its own. -/
theorem decode_exactly_trees_nested :
    let tree : Tree := .block .loop .empty
      (.leaf (.plain (.const (.i32 1))) (.choice (.value .i32)
        (.leaf (.br 1) .done) (.leaf (.brTable [0, 1] 0) .done) .done))
      (.block .block .empty (.leaf (.brIf 0) .done) .done)
    tree.Fits 0 ∧ ∃ body, decode tree.encode 0 = .ok body ∧ body.code = tree.code ∧
      openedLabels body.code = [0, 1, 2] ∧
      ∃! tree : Tree, tree.Fits 0 ∧ body.code = tree.code := by
  intro tree
  have hf : tree.Fits 0 := by decide
  have hsize : tree.encode.length ≤ maxBodySize := by decide +kernel
  obtain ⟨body, hd, hc, ho⟩ := (decode_exactly_trees 0).1 tree hf hsize
  exact ⟨hf, body, hd, hc, ho, (decode_exactly_trees 0).2 _ body hd⟩

end Body

end FlatWasm
