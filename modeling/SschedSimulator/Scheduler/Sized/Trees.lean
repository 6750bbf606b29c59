import SschedSimulator.Scheduler.TreeSampling
import SschedSimulator.Scheduler.UniformSampling

namespace SschedSimulator

open Foundation

/-!
# The sampling trees as arrays with a size

A sampling tree is an array of `2 * L` nodes, where `L` is the least power of two that is at least
the number of outputs.  The functions here are those of the trees with every access checked against
this size.  Whatever a tree holds, no check fails.

* `Sized.updateLeaf_eq`, `Sized.removeLeaf_eq`, `Sized.sampleOutput_eq` — the trees of `BST`;
* `SamplerTree.Sized.addItem_eq`, `removeItem_eq`, `sample_eq` — those of `Queue_Sampler`;
* `treesInRange` — no operation on them leaves its array.
-/

variable {n m : ℕ}

/-- `t[j]` for an array of `size` elements. -/
def readAt {α : Type} (size : ℕ) (t : ℕ → α) (j : ℕ) : Except Fault α := do
  require (j < size) .indexOutOfRange
  .ok (t j)

/-- Reading an element that is there. -/
theorem readAt_eq_ok {α : Type} {size j : ℕ} (t : ℕ → α) (h : j < size) :
    readAt size t j = .ok (t j) := by
  rw [readAt, require_pos h, ok_bind]

namespace BST

namespace Sized

/-- `update`, from node `i` up to the root. -/
def updateFrom (size : ℕ) : ℕ → Bst → ℕ → ℤ → Except Fault Bst
  | 0, bst, _, _ => .ok bst
  | fuel + 1, bst, i, delta => do
    require (i < size) .indexOutOfRange
    require (0 ≤ bst i + delta) .negativeNode
    let bst' : Bst := Function.update bst i (bst i + delta)
    if i = 1 then .ok bst' else updateFrom size fuel bst' (i / 2) delta

/-- `update`. -/
def update (size : ℕ) (bst : Bst) (i : ℕ) (delta : ℤ) : Except Fault Bst :=
  updateFrom size i bst i delta

/-- `remove`. -/
def remove (size : ℕ) (bst : Bst) (i : ℕ) : Except Fault (ℤ × Bst) := do
  let old ← readAt size bst i
  let bst' ← update size bst i (-old)
  .ok (old, bst')

/-- The search of `upper_bound`. -/
def descend (size : ℕ) (bst : Bst) : ℕ → ℕ → ℚ → Except Fault ℕ
  | 0, cur, _ => .ok cur
  | fuel + 1, cur, bound =>
    if size ≤ 2 * cur then .ok cur
    else do
      let left ← readAt size bst (2 * cur)
      if bound < left then descend size bst fuel (2 * cur) bound
      else descend size bst fuel (2 * cur + 1) (bound - left)

/-- `upper_bound`. -/
def upperBound (L : ℕ) (bst : Bst) (bound : ℚ) : Except Fault (Option ℕ) := do
  let root ← readAt (2 * L) bst 1
  if root = 0 then .ok none
  else if 0 ≤ bound ∧ bound ≤ root then do
    let leaf ← descend (2 * L) bst (2 * L) 1 bound
    .ok (some leaf)
  else .ok none

/-- A climb goes to smaller nodes. -/
theorem updateFrom_eq {size fuel i : ℕ} (hi : i < size) (bst : Bst) (delta : ℤ) :
    updateFrom size fuel bst i delta = BST.updateFrom fuel bst i delta := by
  induction fuel generalizing bst i with
  | zero => rfl
  | succ fuel ih =>
    rw [updateFrom, BST.updateFrom, require_pos hi, ok_bind]
    simp only [ih (lt_of_le_of_lt (Nat.div_le_self i 2) hi)]

/-- The search goes on only where the node has children. -/
theorem descend_eq (L : ℕ) (bst : Bst) (fuel cur : ℕ) (bound : ℚ) :
    descend (2 * L) bst fuel cur bound = .ok (Foundation.descend L bst fuel cur bound) := by
  induction fuel generalizing cur bound with
  | zero => rfl
  | succ fuel ih =>
    rw [descend, Foundation.descend]
    split
    · rfl
    · rename_i hinner
      rw [readAt_eq_ok bst (not_le.mp hinner), ok_bind, ih, ih]
      split <;> rfl

/-- A descent from the root ends at a leaf. -/
theorem upperBound_eq {L : ℕ} (hL : 1 ≤ L) (bst : Bst) (bound : ℚ) :
    upperBound L bst bound = .ok (BST.upperBound L bst bound) := by
  rw [upperBound, BST.upperBound, readAt_eq_ok bst (by omega), ok_bind, descend_eq]
  split
  · rfl
  · split <;> rfl

end Sized

/-- The only assertion on the way up. -/
theorem updateFrom_faults (fuel : ℕ) (bst : Bst) (i : ℕ) (delta : ℤ) :
    Post (updateFrom fuel bst i delta) (· = .negativeNode) (fun _ => True) := by
  induction fuel generalizing bst i with
  | zero => trivial
  | succ fuel ih =>
    refine Post.require_bind (fun _ => rfl) (fun _ => ?_)
    dsimp only
    split
    · trivial
    · exact ih _ _

end BST

/-- The leaf of an output is a node of the tree. -/
theorem leaf_lt (o : Fin m) : (o : ℕ) + leftStart m < 2 * leftStart m := by
  have hm := BST.le_nearestPowerOfTwo m
  have ho := o.isLt
  unfold leftStart
  omega

namespace Sized

/-- An update of the leaf of `(i, o)`. -/
def updateLeaf (bst : Fin n → Bst) (i : Fin n) (o : Fin m) (delta : ℤ) :
    Except Fault (Fin n → Bst) := do
  let b ← BST.Sized.update (2 * leftStart m) (bst i) (o + leftStart m) delta
  .ok (Function.update bst i b)

/-- The removal of the leaf of an output. -/
def removeLeaf (b : Bst) (o : Fin m) : Except Fault (ℤ × Bst) :=
  BST.Sized.remove (2 * leftStart m) b (o + leftStart m)

/-- An output is sampled. -/
def sampleOutput (m : ℕ) (b : Bst) (r : ℚ) : Except Fault (Option (Fin m)) := do
  match ← BST.Sized.upperBound (leftStart m) b r with
  | none => .ok none
  | some leaf =>
    if leftStart m ≤ leaf then
      if h : leaf - leftStart m < m then .ok (some ⟨leaf - leftStart m, h⟩) else .ok none
    else .ok none

/-- The update of a leaf reaches nothing but nodes above it. -/
theorem updateLeaf_eq (bst : Fin n → Bst) (i : Fin n) (o : Fin m) (delta : ℤ) :
    updateLeaf bst i o delta = SschedSimulator.updateLeaf bst i o delta := by
  rw [updateLeaf, SschedSimulator.updateLeaf, BST.Sized.update, BST.Sized.updateFrom_eq (leaf_lt o),
    BST.update]

/-- Nor does a removal. -/
theorem removeLeaf_eq (b : Bst) (o : Fin m) :
    removeLeaf b o = BST.remove b (o + leftStart m) := by
  rw [removeLeaf, BST.Sized.remove, readAt_eq_ok b (leaf_lt o), ok_bind, BST.Sized.update,
    BST.Sized.updateFrom_eq (leaf_lt o)]
  rfl

/-- A sample descends from the root. -/
theorem sampleOutput_eq (b : Bst) (r : ℚ) :
    sampleOutput m b r = .ok (SschedSimulator.sampleOutput m b r) := by
  have hL : 1 ≤ leftStart m := BST.one_le_nearestPowerOfTwo m
  rw [sampleOutput, BST.Sized.upperBound_eq hL, ok_bind, SschedSimulator.sampleOutput]
  cases BST.upperBound (leftStart m) b r with
  | none => rfl
  | some leaf =>
    dsimp only
    by_cases hge : leftStart m ≤ leaf
    · simp only [hge, true_and, if_true]
      split <;> rfl
    · simp only [hge, false_and, if_false, dif_neg not_false]

end Sized

/-- An update only fails the assertion on a negative node. -/
theorem updateLeaf_faults (bst : Fin n → Bst) (i : Fin n) (o : Fin m) (delta : ℤ) :
    Post (updateLeaf bst i o delta) (· = .negativeNode) (fun _ => True) :=
  (BST.updateFrom_faults _ _ _ _).bind (fun _ _ => trivial)

/-- A removal only fails the assertion on a negative node. -/
theorem removeLeaf_faults (b : Bst) (o : Fin m) :
    Post (BST.remove b (o + leftStart m)) (· = .negativeNode) (fun _ => True) :=
  (BST.updateFrom_faults _ _ _ _).bind (fun _ _ => trivial)

namespace SamplerTree

/-- The leaf of an output is an element of `queue`. -/
theorem leafNum_add_lt (o : Fin m) : leafNum m + (o : ℕ) < 2 * leafNum m := by
  have hm := BST.le_nearestPowerOfTwo m
  have ho := o.isLt
  unfold leafNum
  omega

namespace Sized

/-- `add_item`. -/
def addItem (st : SamplerTree m) (dst : Fin m) : Except Fault (SamplerTree m) := do
  require (leafNum m + (dst : ℕ) < 2 * leafNum m) .indexOutOfRange
  .ok (st.addItem dst)

/-- `remove_item`. -/
def removeItem (st : SamplerTree m) (dst : Fin m) : Except Fault (SamplerTree m) := do
  require (leafNum m + (dst : ℕ) < 2 * leafNum m) .indexOutOfRange
  st.removeItem dst

/-- `get_packet_number`. -/
def getPacketNumber (st : SamplerTree m) (dst : Fin m) : Except Fault ℤ :=
  readAt (2 * leafNum m) st.queue (dst + leafNum m)

/-- `get_queue_length`. -/
def getQueueLength (st : SamplerTree m) : Except Fault ℤ :=
  (List.range' (leafNum m) (leafNum m)).foldlM (fun result i => do
    let count ← readAt (2 * leafNum m) st.queue i
    .ok (result + count)) 0

/-- One leaf of the loop of `build_tree`. -/
def addLeaf (m : ℕ) (tp : SampleType) (queue : Bst) (k : ℕ) : Except Fault Bst := do
  let count ← readAt (2 * leafNum m) queue (leafNum m + k)
  BST.Sized.update (2 * leafNum m) queue ((leafNum m + k) / 2) (weight tp count)

/-- The loop of `build_tree` that clears the inner nodes. -/
def clearInner (m : ℕ) (queue : Bst) : Except Fault Bst :=
  (List.range' 1 (leafNum m - 1)).foldlM (fun tree i => do
    require (i < 2 * leafNum m) .indexOutOfRange
    .ok (Function.update tree i 0)) queue

/-- `build_tree`. -/
def buildTree (m : ℕ) (tp : SampleType) (queue : Bst) : Except Fault Bst :=
  if tp = .none then .ok queue
  else do
    let cleared ← clearInner m queue
    (List.range (leafNum m)).foldlM (addLeaf m tp) cleared

/-- `search`. -/
def search (L : ℕ) (queue : Bst) : ℕ → ℕ → ℤ → Except Fault ℕ
  | 0, cur, _ => .ok cur
  | fuel + 1, cur, idx =>
    if 2 * L ≤ 2 * cur then .ok cur
    else do
      let left ← readAt (2 * L) queue (2 * cur)
      if idx < left then search L queue fuel (2 * cur) idx
      else search L queue fuel (2 * cur + 1) (idx - left)

/-- `sample`. -/
def sample (tp : SampleType) (draw : ℕ → ℕ) (st : SamplerTree m) :
    Except Fault (Option (Fin m) × SamplerTree m) :=
  if tp = .none then .ok (none, st)
  else do
    let queue ← if tp ≠ st.state then buildTree m tp st.queue else .ok st.queue
    let root ← readAt (2 * leafNum m) queue 1
    if root = 0 then .ok (none, { st with queue := queue })
    else do
      let leaf ← search (leafNum m) queue (2 * leafNum m) 1 (draw root.toNat)
      if h : leafNum m ≤ leaf ∧ leaf - leafNum m < m then
        .ok (some ⟨leaf - leafNum m, h.2⟩, { st with queue := queue })
      else .error .badSample

/-- One more packet at a leaf. -/
theorem addItem_eq (st : SamplerTree m) (dst : Fin m) : addItem st dst = .ok (st.addItem dst) := by
  rw [addItem, require_pos (leafNum_add_lt dst), ok_bind]

/-- One packet less, if there is one. -/
theorem removeItem_eq (st : SamplerTree m) (dst : Fin m) :
    removeItem st dst = st.removeItem dst := by
  rw [removeItem, require_pos (leafNum_add_lt dst), ok_bind]

/-- The count of a leaf. -/
theorem getPacketNumber_eq (st : SamplerTree m) (dst : Fin m) :
    getPacketNumber st dst = .ok (st.getPacketNumber dst) :=
  readAt_eq_ok st.queue (by rw [Nat.add_comm]; exact leafNum_add_lt dst)

/-- The sum over the leaves. -/
theorem getQueueLength_eq (st : SamplerTree m) :
    getQueueLength st = .ok ((List.range' (leafNum m) (leafNum m)).map st.queue).sum := by
  have hloop : ∀ (l : List ℕ) (acc : ℤ), (∀ i ∈ l, i < 2 * leafNum m) →
      l.foldlM (fun result i => do
        let count ← readAt (2 * leafNum m) st.queue i
        .ok (result + count)) acc = (.ok (acc + (l.map st.queue).sum) : Except Fault ℤ) := by
    intro l
    induction l with
    | nil => exact fun acc _ => congrArg Except.ok (add_zero acc).symm
    | cons i rest ih =>
      intro acc hl
      rw [List.foldlM_cons, readAt_eq_ok st.queue (hl i (by simp)), ok_bind, ok_bind,
        ih _ (fun j hj => hl j (by simp [hj])), List.map_cons, List.sum_cons, add_assoc]
  rw [getQueueLength, hloop _ 0 (fun i hi => ?_), zero_add]
  rw [List.mem_range'_1] at hi
  omega

/-- A leaf is added to the nodes above it. -/
theorem addLeaf_eq (tp : SampleType) (queue : Bst) {k : ℕ} (hk : k < leafNum m) :
    addLeaf m tp queue k = SamplerTree.addLeaf m tp queue k := by
  rw [addLeaf, readAt_eq_ok queue (by omega), ok_bind, BST.Sized.update,
    BST.Sized.updateFrom_eq (by omega)]
  rfl

/-- The nodes above the leaves are cleared. -/
theorem clearInner_eq (queue : Bst) :
    clearInner m queue = .ok (fun i => if 1 ≤ i ∧ i < leafNum m then 0 else queue i) := by
  have hloop : ∀ (l : List ℕ) (tree : Bst), (∀ i ∈ l, i < 2 * leafNum m) →
      l.foldlM (fun tree i => do
        require (i < 2 * leafNum m) .indexOutOfRange
        .ok (Function.update tree i 0)) tree
      = (.ok (fun j => if j ∈ l then 0 else tree j) : Except Fault Bst) := by
    intro l
    induction l with
    | nil => exact fun tree _ => congrArg Except.ok (funext (fun j => by simp))
    | cons i rest ih =>
      intro tree hl
      rw [List.foldlM_cons, require_pos (hl i (by simp)), ok_bind, ok_bind,
        ih _ (fun j hj => hl j (by simp [hj]))]
      refine congrArg Except.ok (funext (fun j => ?_))
      by_cases hj : j = i
      · subst hj
        simp
      · simp [hj]
  rw [clearInner, hloop _ queue (fun i hi => ?_)]
  · refine congrArg Except.ok (funext (fun j => if_congr ?_ rfl rfl))
    rw [List.mem_range'_1]
    omega
  · rw [List.mem_range'_1] at hi
    omega

/-- A rebuilding writes the nodes of the tree only. -/
theorem buildTree_eq (tp : SampleType) (queue : Bst) :
    buildTree m tp queue = SamplerTree.buildTree m tp queue := by
  have hleaves : ∀ (l : List ℕ) (tree : Bst), (∀ k ∈ l, k < leafNum m) →
      l.foldlM (addLeaf m tp) tree = l.foldlM (SamplerTree.addLeaf m tp) tree := by
    intro l
    induction l with
    | nil => exact fun _ _ => rfl
    | cons k rest ih =>
      intro tree hl
      rw [List.foldlM_cons, List.foldlM_cons, addLeaf_eq tp tree (hl k (by simp))]
      exact bind_congr (fun tree' => ih tree' (fun j hj => hl j (by simp [hj])))
  rw [buildTree, SamplerTree.buildTree]
  split
  · rfl
  · rw [clearInner_eq, ok_bind]
    exact hleaves _ _ (fun k hk => List.mem_range.mp hk)

/-- A search reads left children until there are none. -/
theorem search_eq (L : ℕ) (queue : Bst) (fuel cur : ℕ) (idx : ℤ) :
    search L queue fuel cur idx = .ok (SamplerTree.search L queue fuel cur idx) := by
  induction fuel generalizing cur idx with
  | zero => rfl
  | succ fuel ih =>
    rw [search, SamplerTree.search]
    split
    · rfl
    · rename_i hinner
      rw [readAt_eq_ok queue (not_le.mp hinner), ok_bind, ih, ih]
      split <;> rfl

/-- A sample rebuilds and searches. -/
theorem sample_eq (tp : SampleType) (draw : ℕ → ℕ) (st : SamplerTree m) :
    sample tp draw st = st.sample tp draw := by
  have hroot : 1 < 2 * leafNum m := by
    have := BST.one_le_nearestPowerOfTwo m
    unfold leafNum
    omega
  unfold sample SamplerTree.sample
  simp only [buildTree_eq, readAt_eq_ok _ hroot, ok_bind, search_eq]

end Sized

/-- A rebuilding only fails the assertion on a negative node. -/
theorem buildTree_faults (tp : SampleType) (queue : Bst) :
    Post (buildTree m tp queue) (· = .negativeNode) (fun _ => True) := by
  unfold buildTree
  split
  · trivial
  · exact Post.foldlM trivial (fun k _ tree _ => BST.updateFrom_faults _ _ _ _)

/-- A sample fails its own assertions only. -/
theorem sample_faults (tp : SampleType) (draw : ℕ → ℕ) (st : SamplerTree m) :
    Post (st.sample tp draw) (fun e => e = .negativeNode ∨ e = .badSample) (fun _ => True) := by
  unfold sample
  dsimp only
  split
  · trivial
  · split
    · refine ((buildTree_faults tp st.queue).mono (fun _ he => .inl he) (fun _ h => h)).bind
        (fun queue _ => ?_)
      split
      · trivial
      · split
        · trivial
        · exact .inr rfl
    · rw [ok_bind]
      split
      · trivial
      · split
        · trivial
        · exact .inr rfl

/-- A removal fails if the leaf has no packet. -/
theorem removeItem_faults (st : SamplerTree m) (dst : Fin m) :
    Post (st.removeItem dst) (· = .negativeCount) (fun _ => True) :=
  Post.require_bind (fun _ => rfl) (fun _ => trivial)

end SamplerTree

/-- Whatever the trees hold, no operation on them evaluates an index outside its array. -/
structure TreesInRange (n m : ℕ) : Prop where
  updateLeaf : ∀ (bst : Fin n → Bst) (i : Fin n) (o : Fin m) (delta : ℤ),
    Sized.updateLeaf bst i o delta ≠ .error .indexOutOfRange
  removeLeaf : ∀ (b : Bst) (o : Fin m), Sized.removeLeaf b o ≠ .error .indexOutOfRange
  sampleOutput : ∀ (b : Bst) (r : ℚ), Sized.sampleOutput m b r ≠ .error .indexOutOfRange
  addItem : ∀ (st : SamplerTree m) (dst : Fin m),
    SamplerTree.Sized.addItem st dst ≠ .error .indexOutOfRange
  removeItem : ∀ (st : SamplerTree m) (dst : Fin m),
    SamplerTree.Sized.removeItem st dst ≠ .error .indexOutOfRange
  getPacketNumber : ∀ (st : SamplerTree m) (dst : Fin m),
    SamplerTree.Sized.getPacketNumber st dst ≠ .error .indexOutOfRange
  getQueueLength : ∀ st : SamplerTree m,
    SamplerTree.Sized.getQueueLength st ≠ .error .indexOutOfRange
  sample : ∀ (tp : SampleType) (draw : ℕ → ℕ) (st : SamplerTree m),
    SamplerTree.Sized.sample tp draw st ≠ .error .indexOutOfRange

/-- The sized operations are the plain ones, whose faults are their assertions. -/
theorem treesInRange (n m : ℕ) : TreesInRange n m where
  updateLeaf bst i o delta := by
    rw [Sized.updateLeaf_eq]
    exact avoids_iff.mp ((updateLeaf_faults bst i o delta).avoids (by decide))
  removeLeaf b o := by
    rw [Sized.removeLeaf_eq]
    exact avoids_iff.mp ((removeLeaf_faults b o).avoids (by decide))
  sampleOutput b r := by
    rw [Sized.sampleOutput_eq]
    exact nofun
  addItem st dst := by
    rw [SamplerTree.Sized.addItem_eq]
    exact nofun
  removeItem st dst := by
    rw [SamplerTree.Sized.removeItem_eq]
    exact avoids_iff.mp ((SamplerTree.removeItem_faults st dst).avoids (by decide))
  getPacketNumber st dst := by
    rw [SamplerTree.Sized.getPacketNumber_eq]
    exact nofun
  getQueueLength st := by
    rw [SamplerTree.Sized.getQueueLength_eq]
    exact nofun
  sample tp draw st := by
    rw [SamplerTree.Sized.sample_eq]
    exact avoids_iff.mp ((SamplerTree.sample_faults tp draw st).avoids (by decide))

end SschedSimulator
