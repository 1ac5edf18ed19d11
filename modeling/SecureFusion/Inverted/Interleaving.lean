import SecureFusion.Inverted.Runs

/-!
# A rebuild among concurrent updates

One rebuild and any number of update transactions on the same index, taking their steps in any
order. Plain reads see the committed rows; reads for update take the lock on the modifications row
until their transaction ends. The metadata row and the pages change only when the rebuild commits,
so its first reads are one step. If no update commits under a term that the rebuild has copied, the
committed rows store the index with all committed changes.
-/

namespace SecureFusion.Inverted

open Std Library List Option

variable {size : RowIdColumnSize} {Blob : Type} {transaction : Nat} {index : AbstractIndex size}

/-! ## The transactions and their steps -/

/-- How far an update transaction has come. -/
inductive UpdatePhase (size : RowIdColumnSize) (Blob : Type) where
  /-- Nothing is read yet. -/
  | ready (change : IndexChange size) (cache : CachedIndexState size)
  /-- The metadata is loaded. -/
  | loaded (change : IndexChange size) (metadataVersion : Nat)
  /-- The modifications row is locked and overwritten with a new version and page. -/
  | written (change : IndexChange size) (version : Nat) (page : Blob)
  | finished

/-- How far the rebuild has come. -/
inductive RebuildPhase (size : RowIdColumnSize) (Blob : Type) where
  | ready (currentVersion : Nat)
  /-- The modifications are copied without a lock and the new pages prepared from the copy. -/
  | prepared (prepared : IndexEnvironment.PreparedVersion size Blob)
  /-- The modifications row is locked. -/
  | locked (prepared : IndexEnvironment.PreparedVersion size Blob)
  | finished

/-- Who holds the lock on the modifications row. -/
inductive LockHolder where
  | update (transaction : Nat)
  | rebuild
deriving DecidableEq, Repr

/-- The committed rows, the lock on the modifications row and the running transactions. -/
structure IndexSystem (size : RowIdColumnSize) (Blob : Type) where
  table : IndexTable Blob
  lock : Option LockHolder
  rebuild : RebuildPhase size Blob
  updates : List (UpdatePhase size Blob)
  /-- The changes of the committed updates, in the order of their commits. -/
  committed : List (IndexChange size)

/-- A step of one of the transactions. -/
inductive SystemStep where
  | load (transaction : Nat)
  | write (transaction : Nat)
  | commit (transaction : Nat)
  | abort (transaction : Nat)
  | prepareRebuild
  | lockRebuild
  | commitRebuild
  | abortRebuild
deriving DecidableEq, Repr

namespace IndexEnvironment

variable (env : IndexEnvironment size Blob)

def step (system : IndexSystem size Blob) : SystemStep → Option (IndexSystem size Blob)
  | .load transaction =>
    match system.updates[transaction]? with
    | some (.ready change cache) => do
      let loaded ← env.loadMetadata system.table 2 cache
      let metadata ← loaded.metadata
      some { system with updates := system.updates.set transaction (.loaded change metadata.version) }
    | _ => none
  | .write transaction =>
    match system.updates[transaction]?, system.lock with
    | some (.loaded change metadataVersion), none => do
      let (version, page) ←
        env.changedModifications system.table metadataVersion change.modifier
      some { system with
        lock := some (.update transaction)
        updates := system.updates.set transaction (.written change version page) }
    | _, _ => none
  | .commit transaction =>
    match system.updates[transaction]? with
    | some (.written change version page) => do
      let table ← env.updateRows system.table modificationsTag version page
      some { system with
        table := table
        lock := none
        updates := system.updates.set transaction .finished
        committed := system.committed ++ [change] }
    | _ => none
  | .abort transaction =>
    some { system with
      lock := if system.lock = some (.update transaction) then none else system.lock
      updates := system.updates.set transaction .finished }
  | .prepareRebuild =>
    match system.rebuild with
    | .ready currentVersion => do
      match ← env.prepareNextVersion currentVersion system.table with
      | some prepared => some { system with rebuild := .prepared prepared }
      | none => some { system with rebuild := .finished }
    | _ => none
  | .lockRebuild =>
    match system.rebuild, system.lock with
    | .prepared prepared, none =>
      some { system with rebuild := .locked prepared, lock := some .rebuild }
    | _, _ => none
  | .commitRebuild =>
    match system.rebuild with
    | .locked prepared => do
      let table ← env.commitNextVersion prepared system.table
      some { system with table := table, rebuild := .finished, lock := none }
    | _ => none
  | .abortRebuild =>
    some { system with
      lock := if system.lock = some .rebuild then none else system.lock
      rebuild := .finished }

end IndexEnvironment

/-! ## Changes under a copied term -/

/-- The terms, as they are stored, to which a change adds documents. -/
def IndexChange.insertedTerms : IndexChange size → List RawIndexTerm
  | .insertMany source => source.flatMap fun entry => entry.2.map resizeTerm
  | .updateMany source => source.flatMap fun entry => entry.2.1.map resizeTerm
  | .delete _ _ => []

/-- The terms, as they are stored, from which a change removes documents. -/
def IndexChange.removedTerms : IndexChange size → List RawIndexTerm
  | .insertMany _ => []
  | .updateMany source => source.flatMap fun entry => entry.2.2.map resizeTerm
  | .delete _ terms => terms.map resizeTerm

/-- A change adds nothing under the terms with added documents of a copy, and removes nothing
under its terms with removed documents. -/
def IndexChange.Avoids (change : IndexChange size) (copy : ModificationsTable size) : Prop :=
  (∀ term ∈ change.insertedTerms, copy.addedEntries.contains term = false) ∧
    ∀ term ∈ change.removedTerms, copy.removedEntries.contains term = false

instance (change : IndexChange size) (copy : ModificationsTable size) :
    Decidable (change.Avoids copy) :=
  inferInstanceAs (Decidable ((∀ term ∈ _, _) ∧ ∀ term ∈ _, _))

/-- The change that a transaction has written and not committed. -/
def UpdatePhase.pending : UpdatePhase size Blob → Option (IndexChange size)
  | .written change _ _ => some change
  | _ => none

/-- The modifications that the rebuild has copied and not locked. -/
def RebuildPhase.copied : RebuildPhase size Blob → Option (ModificationsTable size)
  | .prepared version => some version.changes
  | _ => none

/-- A step does not commit a change under a term that the rebuild has copied and not locked. -/
def IndexSystem.Apart (system : IndexSystem size Blob) : SystemStep → Prop
  | .commit transaction => ∀ change ∈ system.updates[transaction]?.bind UpdatePhase.pending,
    ∀ copy ∈ system.rebuild.copied, change.Avoids copy
  | _ => True

instance (system : IndexSystem size Blob) : (taken : SystemStep) → Decidable (system.Apart taken)
  | .commit _ => inferInstanceAs (Decidable (∀ _ ∈ _, ∀ _ ∈ _, _))
  | .load _ | .write _ | .abort _ | .prepareRebuild | .lockRebuild | .commitRebuild
  | .abortRebuild => .isTrue trivial

variable {lock other : Option LockHolder}

namespace ModificationsTable

variable {base table : ModificationsTable size} {terms : List RawIndexTerm}

section Continues

variable (continues : base.Continues table)

include continues

theorem Continues.insertTerm (document : IndexedDocumentId size) {term : RawIndexTerm}
    (absent : base.addedEntries.contains (resizeTerm term) = false) :
    base.Continues (insertTerm document table term) where
  added key listed other member := by
    have apart : key ≠ resizeTerm term := by
      rintro rfl
      rw [absent] at listed
      cases listed
    have before := (mem_documents_alter _ _ _ _ _).mp member
    have unchanged := before.resolve_right fun same => apart same.2
    exact continues.added key listed other unchanged
  removed key listed other member := by
    have before := (mem_documents_modify _ _ _ _ _).mp member
    exact continues.removed key listed other before.1
  stillAdded key other member := by
    have before := continues.stillAdded key other member
    simp only [ModificationsTable.insertTerm, mem_documents_alter, mem_documents_modify]
    grind
  stillRemoved key other member := by
    have before := continues.stillRemoved key other member
    simp only [ModificationsTable.insertTerm, mem_documents_alter, mem_documents_modify]
    grind

theorem Continues.insertTerms (document : IndexedDocumentId size)
    (absent : ∀ term ∈ terms.map resizeTerm, base.addedEntries.contains term = false) :
    base.Continues (table.insertTerms document terms) := by
  induction terms generalizing table with
  | nil => exact continues
  | cons term rest ih =>
    have first := absent (resizeTerm term) (by simp)
    exact ih (continues.insertTerm document first) fun key member => absent key (by simp [member])

theorem Continues.swap : base.swap.Continues table.swap :=
  ⟨continues.removed, continues.added, continues.stillRemoved, continues.stillAdded⟩

theorem Continues.removeTerms (document : IndexedDocumentId size)
    (absent : ∀ term ∈ terms.map resizeTerm, base.removedEntries.contains term = false) :
    base.Continues (table.removeTerms document terms) := by
  have swapped := continues.swap.insertTerms document absent
  rw [← swap_removeTerms] at swapped
  exact swapped.swap

theorem Continues.modifier {change : IndexChange size} (avoids : change.Avoids base) :
    base.Continues (change.modifier table) := by
  obtain ⟨inserts, removes⟩ := avoids
  cases change with
  | insertMany source =>
    induction source generalizing table with
    | nil => exact continues
    | cons entry rest ih =>
      simp only [IndexChange.insertedTerms, flatMap_cons, mem_append] at inserts ih
      have first := continues.insertTerms entry.1 fun term member => inserts term (.inl member)
      exact ih first (fun term member => inserts term (.inr member)) removes
  | updateMany source =>
    induction source generalizing table with
    | nil => exact continues
    | cons entry rest ih =>
      simp only [IndexChange.insertedTerms, IndexChange.removedTerms, flatMap_cons,
        mem_append] at inserts removes ih
      have added := continues.insertTerms entry.1 fun term member => inserts term (.inl member)
      have removed := added.removeTerms entry.1 fun term member => removes term (.inl member)
      exact ih removed (fun term member => inserts term (.inr member))
        fun term member => removes term (.inr member)
  | delete document terms => exact continues.removeTerms document removes

end Continues

end ModificationsTable

/-! ## What holds between the steps -/

namespace IndexEnvironment

variable (env : IndexEnvironment size Blob)

/-- An encrypted modifications page opens under the key of one version only. -/
def OpensUnderOneVersion : Prop :=
  ∀ {version other modifVersion otherModif : Nat} {blob : Blob}
    {table otherTable : ModificationsTable size},
    env.decryptModifications version modifVersion blob = some table →
      env.decryptModifications other otherModif blob = some otherTable → version = other

/-- What is known of an update transaction: its cached state is no newer than the content, and
what it has written is the changed content, which no one else changes meanwhile. -/
def ValidUpdate (lock : Option LockHolder) (content : IndexContent size) (transaction : Nat) :
    UpdatePhase size Blob → Prop
  | .ready _ cache => cache.Consistent content
  | .loaded _ _ => True
  | .written change version page =>
    lock = some (.update transaction) ∧ version = content.modificationsVersion + 1 ∧
      env.decryptModifications content.version version page =
        some (change.modifier content.modifications)
  | .finished => True

/-- A prepared version was prepared from a content that the current one continues. -/
def PreparedFrom (content : IndexContent size) (prepared : PreparedVersion size Blob) : Prop :=
  ∃ (base : IndexContent size) (pages : List (Nat × TermPage size)),
    env.Prepares base prepared pages ∧ base.version = content.version ∧
      base.pages = content.pages ∧ base.modifications.Continues content.modifications

def ValidRebuild (lock : Option LockHolder) (content : IndexContent size) :
    RebuildPhase size Blob → Prop
  | .prepared prepared => env.PreparedFrom content prepared
  | .locked prepared => lock = some .rebuild ∧ env.PreparedFrom content prepared
  | _ => True

/-- The committed rows store a content, and the transactions agree with it. -/
structure Valid (system : IndexSystem size Blob) (content : IndexContent size) : Prop where
  stores : env.Stores system.table content
  updates : ∀ transaction phase, system.updates[transaction]? = some phase →
    env.ValidUpdate system.lock content transaction phase
  rebuild : env.ValidRebuild system.lock content system.rebuild

/-- The committed rows store the index with all committed changes; a cache is no newer. -/
def Reflects (system : IndexSystem size Blob) (cache : CachedIndexState size)
    (index : AbstractIndex size) : Prop :=
  ∃ content : IndexContent size, env.Valid system content ∧ cache.Consistent content ∧
    content.index = system.committed.foldl AbstractIndex.change index

variable {env} in
theorem ValidUpdate.of_lock {content : IndexContent size} {phase : UpdatePhase size Blob}
    (valid : env.ValidUpdate lock content transaction phase)
    (keeps : lock = some (.update transaction) → other = some (.update transaction)) :
    env.ValidUpdate other content transaction phase := by
  cases phase with
  | ready => exact valid
  | loaded => trivial
  | written => exact ⟨keeps valid.1, valid.2⟩
  | finished => trivial

variable {env} in
theorem ValidUpdate.of_content {content next : IndexContent size} {phase : UpdatePhase size Blob}
    (valid : env.ValidUpdate lock content transaction phase)
    (unlocked : lock ≠ some (.update transaction))
    (consistent : ∀ cache : CachedIndexState size, cache.Consistent content →
      cache.Consistent next) :
    env.ValidUpdate other next transaction phase := by
  cases phase with
  | ready change cache => exact consistent cache valid
  | loaded => trivial
  | written => exact absurd valid.1 unlocked
  | finished => trivial

variable {env} in
theorem ValidRebuild.of_lock {content : IndexContent size} {phase : RebuildPhase size Blob}
    (valid : env.ValidRebuild lock content phase)
    (keeps : lock = some .rebuild → other = some .rebuild) :
    env.ValidRebuild other content phase := by
  cases phase with
  | ready => trivial
  | prepared => exact valid
  | locked => exact ⟨keeps valid.1, valid.2⟩
  | finished => trivial

/-! ## Every step keeps it -/

variable {env} {system next : IndexSystem size Blob} {content : IndexContent size}

theorem Valid.updates_set (valid : env.Valid system content) (transaction : Nat)
    (phase : UpdatePhase size Blob) (lock : Option LockHolder)
    (own : env.ValidUpdate lock content transaction phase)
    (keeps : ∀ other, other ≠ transaction → system.lock = some (.update other) →
      lock = some (.update other)) :
    ∀ other otherPhase, (system.updates.set transaction phase)[other]? = some otherPhase →
      env.ValidUpdate lock content other otherPhase := by
  intro other otherPhase found
  obtain ⟨rfl, rfl⟩ | ⟨apart, found⟩ := Library.Rows.of_getElem?_set found
  · exact own
  · exact (valid.updates other otherPhase found).of_lock (keeps other apart)

theorem Valid.load (valid : env.Valid system content)
    (ran : env.step system (.load transaction) = some next) :
    env.Valid next content ∧ next.committed = system.committed := by
  simp only [step] at ran
  split at ran
  case h_2 => cases ran
  case h_1 change cache found =>
    simp only [bind_some_iff, some.injEq] at ran
    obtain ⟨loaded, _, metadata, _, rfl⟩ := ran
    exact ⟨⟨valid.stores, valid.updates_set transaction _ _ trivial fun _ _ held => held,
      valid.rebuild⟩, rfl⟩

theorem held_of_free {holder : LockHolder} (free : lock = none) (held : lock = some holder) :
    other = some holder := by
  rw [free] at held
  cases held

theorem current_of_changedModifications (opens : env.OpensUnderOneVersion)
    (stores : env.Stores system.table content) {metadataVersion : Nat}
    {modifier : ModificationsTable size → ModificationsTable size} {written : Nat × Blob}
    (changed : env.changedModifications system.table metadataVersion modifier = some written) :
    metadataVersion = content.version := by
  obtain ⟨row, rowFound, isModifications⟩ := stores.modificationsRow
  simp only [changedModifications, rowFound, head?_cons, bind_eq_bind,
    bind_some, bind_eq_some_iff, decryptAsModifications] at changed
  obtain ⟨current, ⟨_, _, modifications, decrypted, _⟩, _⟩ := changed
  exact opens decrypted isModifications.page

theorem Valid.write (opens : env.OpensUnderOneVersion) (valid : env.Valid system content)
    (ran : env.step system (.write transaction) = some next) :
    env.Valid next content ∧ next.committed = system.committed := by
  simp only [step] at ran
  split at ran
  case h_2 => cases ran
  case h_1 change metadataVersion found free =>
    simp only [bind_some_iff, some.injEq] at ran
    obtain ⟨⟨version, page⟩, changed, rfl⟩ := ran
    rw [current_of_changedModifications opens valid.stores changed] at changed
    have written := env.changedModifications_spec valid.stores changed
    have updates := valid.updates_set transaction (.written change version page)
      (some (.update transaction)) ⟨rfl, written⟩ fun _ _ held => held_of_free free held
    exact ⟨⟨valid.stores, updates, valid.rebuild.of_lock (held_of_free free)⟩, rfl⟩

section Valid

variable (valid : env.Valid system content)

include valid

theorem Valid.commit (apart : system.Apart (.commit transaction))
    (ran : env.step system (.commit transaction) = some next) :
    ∃ (change : IndexChange size) (changed : IndexContent size), env.Valid next changed ∧
      (∀ cache : CachedIndexState size, cache.Consistent content → cache.Consistent changed) ∧
      changed.index = content.index.change change ∧
      next.committed = system.committed ++ [change] := by
  simp only [step] at ran
  split at ran
  case h_2 => cases ran
  case h_1 change version page found =>
    simp only [bind_some_iff, some.injEq] at ran
    obtain ⟨table, written, rfl⟩ := ran
    have own := valid.updates transaction _ found
    have held : system.lock = some (.update transaction) := own.1
    have simulates := simulates_modifier change
    obtain ⟨changed, stores, modifications, pages, sameVersion, metadata, newer⟩ :=
      env.stores_changedModifications simulates valid.stores own.2.1 own.2.2 written
    have consistent (cache : CachedIndexState size) (known : cache.Consistent content) :
        cache.Consistent changed := known.of_changed sameVersion metadata newer
    refine ⟨change, changed, ⟨stores, ?_, ?_⟩, consistent, ?_, rfl⟩
    -- The other transactions do not hold the lock.
    · intro other phase located
      obtain ⟨rfl, rfl⟩ | ⟨different, located⟩ := Library.Rows.of_getElem?_set located
      · trivial
      · have unlocked : system.lock ≠ some (.update other) := by simp [held, different.symm]
        exact (valid.updates other phase located).of_content unlocked consistent
    -- A prepared rebuild has not copied a term of the change.
    · have rebuild := valid.rebuild
      cases phase : system.rebuild with
      | ready | finished => trivial
      | locked =>
        rw [phase] at rebuild
        have other := rebuild.1
        rw [held] at other
        cases other
      | prepared prepared =>
        rw [phase] at rebuild
        obtain ⟨base, newPages, prepares, baseVersion, basePages, continues⟩ := rebuild
        have avoids : change.Avoids base.modifications := by
          rw [← prepares.changes]
          refine apart change ?_ prepared.changes ?_
          · rw [found]
            rfl
          · rw [phase]
            rfl
        have continued := continues.modifier avoids
        rw [← modifications] at continued
        exact ⟨base, newPages, prepares, baseVersion.trans sameVersion.symm,
          basePages.trans pages.symm, continued⟩
    · rw [IndexContent.index, modifications, pages, simulates.apply]
      rfl

theorem Valid.abort (ran : env.step system (.abort transaction) = some next) :
    env.Valid next content ∧ next.committed = system.committed := by
  cases ran
  have updates := valid.updates_set transaction .finished
    (if system.lock = some (.update transaction) then none else system.lock) trivial
    fun other different held => by
      have unlocked : system.lock ≠ some (.update transaction) := by simp [held, different]
      rw [if_neg unlocked, held]
  exact ⟨⟨valid.stores, updates, valid.rebuild.of_lock fun held => by simp [held]⟩, rfl⟩

theorem Valid.prepareRebuild (ran : env.step system .prepareRebuild = some next) :
    env.Valid next content ∧ next.committed = system.committed := by
  simp only [step] at ran
  split at ran
  case h_2 => cases ran
  case h_1 currentVersion phase =>
    simp only [bind_some_iff] at ran
    obtain ⟨prepared, preparation, ran⟩ := ran
    cases prepared with
    | none =>
      cases ran
      exact ⟨⟨valid.stores, valid.updates, trivial⟩, rfl⟩
    | some prepared =>
      cases ran
      obtain ⟨pages, prepares⟩ := env.prepareNextVersion_spec valid.stores preparation
      exact ⟨⟨valid.stores, valid.updates,
        ⟨content, pages, prepares, rfl, rfl, .refl _⟩⟩, rfl⟩

theorem Valid.lockRebuild (ran : env.step system .lockRebuild = some next) :
    env.Valid next content ∧ next.committed = system.committed := by
  simp only [step] at ran
  split at ran
  case h_2 => cases ran
  case h_1 prepared phase free =>
    cases ran
    have rebuild := valid.rebuild
    rw [phase] at rebuild
    exact ⟨⟨valid.stores, fun transaction phase found =>
      (valid.updates transaction phase found).of_lock (held_of_free free), rfl, rebuild⟩, rfl⟩

theorem Valid.commitRebuild (ran : env.step system .commitRebuild = some next) :
    ∃ rebuilt : IndexContent size, env.Valid next rebuilt ∧
      (∀ cache : CachedIndexState size, cache.Consistent content → cache.Consistent rebuilt) ∧
      rebuilt.index = content.index ∧ next.committed = system.committed := by
  simp only [step] at ran
  split at ran
  case h_2 => cases ran
  case h_1 prepared phase =>
    simp only [bind_some_iff, some.injEq] at ran
    obtain ⟨table, committed, rfl⟩ := ran
    have rebuild := valid.rebuild
    rw [phase] at rebuild
    obtain ⟨held, base, pages, prepares, sameVersion, samePages, continues⟩ := rebuild
    obtain ⟨rebuilt, stores, same, newer⟩ := env.commitNextVersion_index prepares valid.stores
      sameVersion samePages continues committed
    have consistent (cache : CachedIndexState size) (known : cache.Consistent content) :
        cache.Consistent rebuilt := known.of_newer newer
    refine ⟨rebuilt, ⟨stores, fun transaction phase found => ?_, trivial⟩, consistent, same, rfl⟩
    have unlocked : system.lock ≠ some (.update transaction) := by simp [held]
    exact (valid.updates transaction phase found).of_content unlocked consistent

theorem Valid.abortRebuild (ran : env.step system .abortRebuild = some next) :
    env.Valid next content ∧ next.committed = system.committed := by
  cases ran
  exact ⟨⟨valid.stores, fun transaction phase found =>
    (valid.updates transaction phase found).of_lock fun held => by simp [held], trivial⟩, rfl⟩

end Valid

variable {cache : CachedIndexState size}

theorem reflects_step (opens : env.OpensUnderOneVersion)
    (reflects : env.Reflects system cache index) {taken : SystemStep} (apart : system.Apart taken)
    (ran : env.step system taken = some next) : env.Reflects next cache index := by
  obtain ⟨content, valid, consistent, same⟩ := reflects
  -- Most steps change neither the content nor what is committed.
  have unchanged : env.Valid next content ∧ next.committed = system.committed →
      env.Reflects next cache index := fun kept =>
    ⟨content, kept.1, consistent, by rw [kept.2, same]⟩
  cases taken with
  | load transaction => exact unchanged (valid.load ran)
  | write transaction => exact unchanged (valid.write opens ran)
  | commit transaction =>
    obtain ⟨change, changed, validNext, keeps, applied, committed⟩ := valid.commit apart ran
    refine ⟨changed, validNext, keeps cache consistent, ?_⟩
    rw [applied, committed, foldl_append, same]
    rfl
  | abort transaction => exact unchanged (valid.abort ran)
  | prepareRebuild => exact unchanged (valid.prepareRebuild ran)
  | lockRebuild => exact unchanged (valid.lockRebuild ran)
  | commitRebuild =>
    obtain ⟨rebuilt, validNext, keeps, kept, committed⟩ := valid.commitRebuild ran
    exact ⟨rebuilt, validNext, keeps cache consistent, by rw [kept, committed, same]⟩
  | abortRebuild => exact unchanged (valid.abortRebuild ran)

/-! ## Whole runs -/

variable (env) in
/-- No step of a run commits a change under a term that the rebuild has copied. -/
def ApartAlong (system : IndexSystem size Blob) : List SystemStep → Prop
  | [] => True
  | taken :: rest => system.Apart taken ∧
    match env.step system taken with
    | some next => ApartAlong next rest
    | none => True

variable (env) in
/-- Whether the steps of a run stay apart can be computed. -/
def decideApartAlong (system : IndexSystem size Blob) :
    (steps : List SystemStep) → Decidable (env.ApartAlong system steps)
  | [] => .isTrue trivial
  | taken :: rest =>
    match ran : env.step system taken with
    | none => decidable_of_iff (system.Apart taken) (by simp [ApartAlong, ran])
    | some next =>
      have := decideApartAlong next rest
      decidable_of_iff (system.Apart taken ∧ env.ApartAlong next rest) (by simp [ApartAlong, ran])

instance (system : IndexSystem size Blob) (steps : List SystemStep) :
    Decidable (env.ApartAlong system steps) := env.decideApartAlong system steps

theorem reflects_steps (opens : env.OpensUnderOneVersion)
    (reflects : env.Reflects system cache index) (steps : List SystemStep)
    (apart : env.ApartAlong system steps) {final : IndexSystem size Blob}
    (ran : steps.foldlM env.step system = some final) : env.Reflects final cache index := by
  induction steps generalizing system with
  | nil =>
    cases ran
    exact reflects
  | cons taken rest ih =>
    rw [foldlM_cons, bind_some_iff] at ran
    obtain ⟨middle, first, ran⟩ := ran
    simp only [ApartAlong, first] at apart
    exact ih (reflects_step opens reflects apart.1 first) apart.2 ran

end IndexEnvironment

def IndexSystem.start (table : IndexTable Blob) (currentVersion : Nat)
    (changes : List (IndexChange size × CachedIndexState size)) : IndexSystem size Blob :=
  { table := table
    lock := none
    rebuild := .ready currentVersion
    updates := changes.map fun entry => .ready entry.1 entry.2
    committed := [] }

namespace IndexEnvironment

variable {env : IndexEnvironment size Blob}

theorem reflects_start {state : IndexState size Blob} (represents : env.Represents state index)
    (currentVersion : Nat) {changes : List (IndexChange size × CachedIndexState size)}
    (caches : ∀ entry ∈ changes, entry.2 = state.cache ∨ entry.2 = .empty)
    {cache : CachedIndexState size} (known : cache = state.cache ∨ cache = .empty) :
    env.Reflects (.start state.table currentVersion changes) cache index := by
  obtain ⟨content, stores, consistent, same⟩ := represents
  have starts : ∀ {cache}, cache = state.cache ∨ cache = .empty → cache.Consistent content := by
    rintro _ (rfl | rfl)
    · exact consistent
    · exact CachedIndexState.consistent_empty content
  refine ⟨content, ⟨stores, ?_, trivial⟩, starts known, same⟩
  intro transaction phase found
  obtain ⟨entry, listed, rfl⟩ := mem_map.mp (mem_of_getElem? found)
  exact starts (caches entry listed)

/-- However a rebuild and the updates are interleaved, queries of the committed rows return the
sets of the index with all committed changes, if none was committed under a copied term. The
cache of the queries may be as old as the start of the run. -/
theorem query_interleaving (opens : env.OpensUnderOneVersion) {state : IndexState size Blob}
    {source : List (IndexedDocumentId size × List RawIndexTerm)}
    {operations : List (IndexOperation size)} (ran : env.run source operations = some state)
    (currentVersion : Nat) {changes : List (IndexChange size × CachedIndexState size)}
    (caches : ∀ entry ∈ changes, entry.2 = state.cache ∨ entry.2 = .empty)
    {steps : List SystemStep} {final : IndexSystem size Blob}
    (interleaved : steps.foldlM env.step (.start state.table currentVersion changes) = some final)
    (apart : env.ApartAlong (.start state.table currentVersion changes) steps)
    {cache : CachedIndexState size} (known : cache = state.cache ∨ cache = .empty)
    (queries : List RawIndexQuery) :
    ∃ answers updated, env.query ⟨final.table, cache⟩ queries = some (answers, updated) ∧
      answers.map (fun answer : Finset (IndexedDocumentId size) => (answer : Set _)) =
        queries.map (final.committed.foldl AbstractIndex.change
          (AbstractIndex.run source operations)).evaluate := by
  have reflects := reflects_start (env.represents_run ran) currentVersion caches known
  obtain ⟨content, valid, consistent, same⟩ :=
    reflects_steps opens reflects steps apart interleaved
  have spec := @query_spec _ _ ⟨final.table, cache⟩ content env valid.stores consistent queries
  obtain ⟨answers, answered, sets⟩ := spec
  exact ⟨answers, _, answered, by rw [sets, same]⟩

end IndexEnvironment

/-! ## Two interleavings -/

theorem SymbolicBlob.opensUnderOneVersion (size : RowIdColumnSize) :
    (environment size).OpensUnderOneVersion := by
  have key : ∀ {version modifVersion : Nat} {blob : SymbolicBlob size}
      {table : ModificationsTable size},
      (environment size).decryptModifications version modifVersion blob = some table →
        ∃ content, blob = .encrypted version content := by
    intro version modifVersion blob table decrypted
    simp only [IndexEnvironment.decryptModifications, environment, cipher,
      bind_some_iff] at decrypted
    obtain ⟨_, _, plaintext, opened, _⟩ := decrypted
    cases blob with
    | encrypted used content =>
      by_cases same : used = version
      · exact ⟨content, by rw [same]⟩
      · simp [same] at opened
    | metadata | modifications | terms => simp at opened
  intro version other modifVersion otherModif blob table otherTable first second
  obtain ⟨content, rfl⟩ := key first
  obtain ⟨otherContent, same⟩ := key second
  exact (SymbolicBlob.encrypted.inj same).1

namespace IndexEnvironment

/-- An update that commits between the two reads of a rebuild. -/
def betweenReads : List SystemStep :=
  [.prepareRebuild, .load 0, .write 0, .commit 0, .lockRebuild, .commitRebuild]

/-- An update between the two reads of a rebuild, under a term that the rebuild has not copied. -/
theorem query_interleaving_other_term : let operations : List (IndexOperation .size4Bytes) :=
      [.change (.insertMany [(SymbolicBlob.document 1, [[5]])])]
    let change : IndexChange .size4Bytes := .insertMany [(SymbolicBlob.document 2, [[6]])]
    ∃ state final, (SymbolicBlob.environment .size4Bytes).run [] operations = some state ∧
      betweenReads.foldlM (SymbolicBlob.environment .size4Bytes).step
        (.start state.table 1 [(change, state.cache)]) = some final ∧
      ∀ queries, ∃ answers updated,
        (SymbolicBlob.environment .size4Bytes).query ⟨final.table, state.cache⟩ queries =
          some (answers, updated) ∧
        answers.map (fun answer : Finset (IndexedDocumentId .size4Bytes) => (answer : Set _)) =
          queries.map (final.committed.foldl AbstractIndex.change
            (AbstractIndex.run [] operations)).evaluate := by
  intro operations change
  have computed : (((SymbolicBlob.environment .size4Bytes).run [] operations).bind fun state =>
      (betweenReads.foldlM (SymbolicBlob.environment .size4Bytes).step
        (.start state.table 1 [(change, state.cache)])).map fun _ =>
          decide ((SymbolicBlob.environment .size4Bytes).ApartAlong
            (.start state.table 1 [(change, state.cache)]) betweenReads)) = some true := by
    decide +kernel
  simp only [bind_eq_some_iff, map_eq_some_iff, decide_eq_true_eq] at computed
  obtain ⟨state, ran, final, interleaved, apart⟩ := computed
  exact ⟨state, final, ran, interleaved, query_interleaving
    (SymbolicBlob.opensUnderOneVersion _) ran 1 (by simp) interleaved apart (.inl rfl)⟩

/-- An insertion that commits between the two reads of a rebuild, under a term that the rebuild
has copied, is lost when the rebuild commits. -/
theorem rebuild_loses_committed_insertion : let operations : List (IndexOperation .size4Bytes) :=
      [.change (.insertMany [(SymbolicBlob.document 1, [[5]])])]
    let change : IndexChange .size4Bytes := .insertMany [(SymbolicBlob.document 2, [[5]])]
    ∃ state final updated, (SymbolicBlob.environment .size4Bytes).run [] operations = some state ∧
      betweenReads.foldlM (SymbolicBlob.environment .size4Bytes).step
        (.start state.table 1 [(change, state.cache)]) = some final ∧
      final.committed = [change] ∧
      (SymbolicBlob.environment .size4Bytes).query ⟨final.table, .empty⟩ [.term [5]] =
        some ([{SymbolicBlob.document 1}], updated) ∧
      SymbolicBlob.document 2 ∈ (final.committed.foldl AbstractIndex.change
        (AbstractIndex.run [] operations)).evaluate (.term [5]) := by
  intro operations change
  have computed : (((SymbolicBlob.environment .size4Bytes).run [] operations).bind fun state =>
      (betweenReads.foldlM (SymbolicBlob.environment .size4Bytes).step
        (.start state.table 1 [(change, state.cache)])).bind fun final =>
          ((SymbolicBlob.environment .size4Bytes).query ⟨final.table, .empty⟩ [.term [5]]).map
            fun answered => (answered.1, final.committed)) =
      some ([{SymbolicBlob.document 1}], [change]) := by
    decide +kernel
  simp only [bind_eq_some_iff, map_eq_some_iff, Prod.mk.injEq] at computed
  obtain ⟨state, ran, final, interleaved, ⟨answers, updated⟩, answered, rfl, committed⟩ := computed
  refine ⟨state, final, updated, ran, interleaved, committed, answered, ?_⟩
  rw [committed]
  simp [AbstractIndex.evaluate, AbstractIndex.change, AbstractIndex.insertMany,
    AbstractIndex.insertTerms, change]

end IndexEnvironment

end SecureFusion.Inverted
