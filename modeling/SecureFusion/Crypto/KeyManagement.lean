import SecureFusion.Library.Bytes
import SecureFusion.Sql.Scalar

/-!
# Key management

Every cipher and every generator of identifiers has a key of its own, derived from a master key for a
context. The contexts are written as texts, so that two of them share a key when their names spell
the same text around the separators.
-/

namespace SecureFusion.Crypto

variable {separator : Char} {version other : UInt64}

open Library Sql

/-! ## Contexts and derivations -/

/-- The text of a table name, which joins its parts by dots. -/
def displayTable (table : ResolvedTableReference) : String :=
  table.catalog ++ "." ++ table.schema ++ "." ++ table.table

/-- What a generator of identifiers is used for. -/
inductive IdentifierContext where
  | rowIdColumn (tableContext : ResolvedTableReference)
  | namedIndexInTable (tableContext : ResolvedTableReference) (indexName : String)
  | namedVersionedIndexInTable (tableContext : ResolvedTableReference) (indexName : String)
      (versionNumber : UInt64)
deriving DecidableEq, Repr

def IdentifierContext.display : IdentifierContext → String
  | .namedIndexInTable tableContext indexName =>
    "named_index(" ++ displayTable tableContext ++ "," ++ indexName ++ ")"
  | .rowIdColumn tableContext => "row_id(" ++ displayTable tableContext ++ ")"
  | .namedVersionedIndexInTable tableContext indexName versionNumber =>
    "versioned_index(" ++ displayTable tableContext ++ "," ++ indexName ++ ",v" ++
      toString versionNumber.toNat ++ ")"

/-- What a cipher is used for. -/
inductive CipherContext where
  | tableColumn (tableContext : ResolvedTableReference) (columnName : String)
  | versionedIndexEntry (tableContext : ResolvedTableReference) (indexName : String)
      (versionNumber : Option UInt64)
deriving DecidableEq, Repr

/-- What a key is derived for. -/
inductive DerivationContext where
  | cipher (context : CipherContext)
  | identifiers (context : IdentifierContext)
deriving DecidableEq, Repr

/-- What is derived from a master key with HKDF: the salt of the extraction, and the information of
the expansion. Some generators keep the extracted key, and their information comes with every
identifier. -/
structure Derivation where
  salt : Option Bytes
  info : Option Bytes
deriving DecidableEq, Repr

def Derivation.Shares (first second : Derivation) : Prop :=
  first.salt = second.salt ∧
    (first.info = second.info ∨ first.info = none ∨ second.info = none)

/-- The key managers. -/
inductive KeyManager where
  | rustCryptoHkdfSha256
  | awsLcHkdfSha256
  | legacy
  | compatAwsLcHkdfSha256
deriving DecidableEq, Repr

/-- The information of the cipher of a context, for managers that extract once. -/
def CipherContext.info : CipherContext → String
  | .tableColumn tableContext columnName =>
    "tbl:" ++ displayTable tableContext ++ "." ++ columnName
  | .versionedIndexEntry tableContext indexName versionNumber =>
    "versioned_index:" ++ displayTable tableContext ++ "." ++ indexName ++ ":" ++
      toString (versionNumber.getD 0).toNat

/-- The derivation of the cipher of a context, for managers that extract with a salt. -/
def CipherContext.salted : CipherContext → Derivation
  | .tableColumn tableContext columnName =>
    ⟨some (utf8Bytes ("tbl:" ++ displayTable tableContext ++ "." ++ columnName)),
      some (utf8Bytes columnName)⟩
  | .versionedIndexEntry tableContext indexName versionNumber =>
    ⟨some (utf8Bytes ("versioned_index(" ++ displayTable tableContext ++ "," ++ indexName ++ ")")),
      some (leBytes 8 (versionNumber.getD 0).toNat)⟩

/-- The derivation of the generator of a context, for managers that extract with a salt. -/
def IdentifierContext.salted (context : IdentifierContext) : Derivation :=
  ⟨some (utf8Bytes ("ident_generator:" ++ context.display)), none⟩

/-- What the key of a cipher is derived from. -/
def KeyManager.getCipher (manager : KeyManager) (context : CipherContext) : Derivation :=
  match manager with
  | .rustCryptoHkdfSha256 => ⟨none, some (utf8Bytes context.info)⟩
  | .awsLcHkdfSha256 => ⟨some [], some (utf8Bytes context.info)⟩
  | .legacy | .compatAwsLcHkdfSha256 => context.salted

/-- The derivation of the key of a generator of identifiers. -/
def KeyManager.getIdentifierGenerator (manager : KeyManager) (context : IdentifierContext) :
    Derivation :=
  match manager with
  | .rustCryptoHkdfSha256 => ⟨none, some (utf8Bytes ("ident_generator:" ++ context.display))⟩
  | .awsLcHkdfSha256 => ⟨some [], some (utf8Bytes context.display)⟩
  | .legacy | .compatAwsLcHkdfSha256 => context.salted

/-- What a manager derives in a context. -/
def KeyManager.derivation (manager : KeyManager) : DerivationContext → Derivation
  | .cipher context => manager.getCipher context
  | .identifiers context => manager.getIdentifierGenerator context

/-! ## Contexts that share a key -/

/-- A manager that extracts with a salt for each context. -/
def KeyManager.isSalted : KeyManager → Bool
  | .rustCryptoHkdfSha256 | .awsLcHkdfSha256 => false
  | .legacy | .compatAwsLcHkdfSha256 => true

/-- The names of two generators of one kind spell the same text, and their versions are the same. -/
def IdentifierContext.Confused : IdentifierContext → IdentifierContext → Prop
  | .rowIdColumn table, .rowIdColumn other => displayTable table = displayTable other
  | .namedIndexInTable table index, .namedIndexInTable other otherIndex =>
    displayTable table ++ "," ++ index = displayTable other ++ "," ++ otherIndex
  | .namedVersionedIndexInTable table index version,
    .namedVersionedIndexInTable other otherIndex otherVersion =>
    displayTable table ++ "," ++ index = displayTable other ++ "," ++ otherIndex ∧
      version = otherVersion
  | _, _ => False

/-- The names of two ciphers of one kind spell the same text, and their versions are the same if a
missing one counts as zero. -/
def CipherContext.Confused (salted : Bool) : CipherContext → CipherContext → Prop
  | .tableColumn table column, .tableColumn other otherColumn =>
    displayTable table ++ "." ++ column = displayTable other ++ "." ++ otherColumn ∧
      (salted = true → column = otherColumn)
  | .versionedIndexEntry table index version, .versionedIndexEntry other otherIndex otherVersion =>
    let separator := if salted then "," else "."
    displayTable table ++ separator ++ index = displayTable other ++ separator ++ otherIndex ∧
      version.getD 0 = otherVersion.getD 0
  | _, _ => False

/-- Contexts with one derivation. -/
def KeyManager.Confuses (manager : KeyManager) : DerivationContext → DerivationContext → Prop
  | .cipher context, .cipher other => context.Confused manager.isSalted other
  | .identifiers context, .identifiers other => context.Confused other
  | _, _ => False

variable (first second : IdentifierContext) (context : IdentifierContext)

theorem append_version_inj {first second : String} (noDigit : separator.isDigit = false) :
    first ++ String.singleton separator ++ toString version.toNat =
        second ++ String.singleton separator ++ toString other.toNat ↔
      first = second ∧ version = other := by
  have absent (value : Nat) : separator ∉ Nat.toDigits 10 value := by
    intro isIn
    have digit := Nat.isDigit_of_mem_toDigits (by decide) (by decide) isIn
    rw [noDigit] at digit
    cases digit
  rw [← String.toList_inj]
  simp only [String.toList_append, String.toList_singleton, List.append_assoc,
    List.singleton_append, toList_toString_nat]
  rw [append_cons_inj_right (absent _) (absent _), String.toList_inj, ← toList_toString_nat,
    ← toList_toString_nat, String.toList_inj, toString_nat_inj, UInt64.toNat_inj]

theorem display_rowIdColumn (table : ResolvedTableReference) :
    (IdentifierContext.rowIdColumn table).display = "row_id(" ++ (displayTable table ++ ")") :=
  String.append_assoc

theorem display_namedIndexInTable (table : ResolvedTableReference) (index : String) :
    (IdentifierContext.namedIndexInTable table index).display =
      "named_index(" ++ (displayTable table ++ "," ++ index ++ ")") := by
  change "named_index(" ++ displayTable table ++ "," ++ index ++ ")" = _
  simp only [String.append_assoc]

theorem display_namedVersionedIndexInTable (table : ResolvedTableReference) (index : String)
    (version : UInt64) :
    (IdentifierContext.namedVersionedIndexInTable table index version).display =
      "versioned_index(" ++ (displayTable table ++ "," ++ index ++ "," ++
        String.singleton 'v' ++ toString version.toNat ++ ")") := by
  have split : (",v" : String) = "," ++ String.singleton 'v' := rfl
  change "versioned_index(" ++ displayTable table ++ "," ++ index ++ ",v" ++
    toString version.toNat ++ ")" = _
  rw [split]
  simp only [String.append_assoc]

theorem display_eq_iff : first.display = second.display ↔ first.Confused second := by
  cases first <;> cases second <;> simp only [display_rowIdColumn, display_namedIndexInTable,
    display_namedVersionedIndexInTable]
  case rowIdColumn.rowIdColumn | namedIndexInTable.namedIndexInTable =>
    rw [String.append_right_inj, String.append_left_inj]
    exact Iff.rfl
  case namedVersionedIndexInTable.namedVersionedIndexInTable =>
    rw [String.append_right_inj, String.append_left_inj, append_version_inj rfl,
      String.append_left_inj]
    exact Iff.rfl
  -- The texts of different kinds start differently.
  all_goals exact iff_of_false (append_ne_append (by decide) (by decide) _ _) id

theorem info_tableColumn (table : ResolvedTableReference) (column : String) :
    (CipherContext.tableColumn table column).info =
      "tbl:" ++ (displayTable table ++ "." ++ column) := by
  change "tbl:" ++ displayTable table ++ "." ++ column = _
  simp only [String.append_assoc]

theorem info_versionedIndexEntry (table : ResolvedTableReference) (index : String)
    (version : Option UInt64) :
    (CipherContext.versionedIndexEntry table index version).info =
      "versioned_index:" ++ (displayTable table ++ "." ++ index ++ String.singleton ':' ++
        toString (version.getD 0).toNat) := by
  have colon : (":" : String) = String.singleton ':' := rfl
  change "versioned_index:" ++ displayTable table ++ "." ++ index ++ ":" ++
    toString (version.getD 0).toNat = _
  rw [colon]
  simp only [String.append_assoc]

theorem info_eq_iff (first second : CipherContext) :
    first.info = second.info ↔ first.Confused false second := by
  cases first <;> cases second <;> simp only [info_tableColumn, info_versionedIndexEntry]
  case tableColumn.tableColumn =>
    rw [String.append_right_inj]
    exact (and_iff_left nofun).symm
  case versionedIndexEntry.versionedIndexEntry =>
    rw [String.append_right_inj, append_version_inj rfl]
    exact Iff.rfl
  all_goals exact iff_of_false (append_ne_append (by decide) (by decide) _ _) id

theorem salted_tableColumn (table : ResolvedTableReference) (column : String) :
    (CipherContext.tableColumn table column).salted =
      ⟨some (utf8Bytes ("tbl:" ++ (displayTable table ++ "." ++ column))),
        some (utf8Bytes column)⟩ := by
  rw [← info_tableColumn]
  rfl

theorem salted_versionedIndexEntry (table : ResolvedTableReference) (index : String)
    (version : Option UInt64) :
    (CipherContext.versionedIndexEntry table index version).salted =
      ⟨some (utf8Bytes ("versioned_index(" ++ (displayTable table ++ "," ++ index ++ ")"))),
        some (leBytes 8 (version.getD 0).toNat)⟩ := by
  rw [← String.append_assoc, ← String.append_assoc, ← String.append_assoc]
  rfl

theorem shares_some_iff {salt otherSalt : String} {info otherInfo : Bytes} :
    Derivation.Shares ⟨some (utf8Bytes salt), some info⟩ ⟨some (utf8Bytes otherSalt), some otherInfo⟩ ↔
      salt = otherSalt ∧ info = otherInfo := by
  simp only [Derivation.Shares, Option.some.injEq, reduceCtorEq, or_false]
  exact and_congr_left' ⟨utf8Bytes_injective, congrArg utf8Bytes⟩

theorem leBytes_version_inj :
    leBytes 8 version.toNat = leBytes 8 other.toNat ↔ version = other := by
  refine ⟨fun same => UInt64.toNat_inj.mp (leBytes_inj ?_ ?_ same), fun same => by rw [same]⟩
  · exact version.toNat_lt
  · exact other.toNat_lt

theorem salted_shares_iff (first second : CipherContext) :
    first.salted.Shares second.salted ↔ first.Confused true second := by
  cases first <;> cases second <;>
    simp only [salted_tableColumn, salted_versionedIndexEntry, shares_some_iff]
  case tableColumn.tableColumn =>
    rw [String.append_right_inj]
    refine and_congr_right fun _ => ?_
    exact ⟨fun same _ => utf8Bytes_injective same, fun same => by rw [same rfl]⟩
  case versionedIndexEntry.versionedIndexEntry =>
    rw [String.append_right_inj, String.append_left_inj, leBytes_version_inj]
    exact Iff.rfl
  all_goals
    exact iff_of_false (fun same => append_ne_append (by decide) (by decide) _ _ same.1) id

def StartsWithTag (tags : List String) (text : String) : Prop :=
  ∃ tag ∈ tags, ∃ rest, text = tag ++ rest

theorem ne_of_tags {tags otherTags : List String} {text other : String}
    (apart : ∀ tag ∈ tags, ∀ otherTag ∈ otherTags,
      ¬tag.toList <+: otherTag.toList ∧ ¬otherTag.toList <+: tag.toList)
    (tagged : StartsWithTag tags text) (otherTagged : StartsWithTag otherTags other) :
    text ≠ other := by
  obtain ⟨tag, isTag, rest, rfl⟩ := tagged
  obtain ⟨otherTag, isOther, otherRest, rfl⟩ := otherTagged
  obtain ⟨before, after⟩ := apart tag isTag otherTag isOther
  exact append_ne_append before after rest otherRest

theorem info_tagged (context : CipherContext) :
    StartsWithTag ["tbl:", "versioned_index:"] context.info := by
  cases context with
  | tableColumn table column => exact ⟨_, by simp, _, info_tableColumn table column⟩
  | versionedIndexEntry table index version =>
    exact ⟨_, by simp, _, info_versionedIndexEntry table index version⟩

theorem display_tagged :
    StartsWithTag ["row_id(", "named_index(", "versioned_index("] context.display := by
  cases context with
  | rowIdColumn table => exact ⟨_, by simp, _, display_rowIdColumn table⟩
  | namedIndexInTable table index => exact ⟨_, by simp, _, display_namedIndexInTable table index⟩
  | namedVersionedIndexInTable table index version =>
    exact ⟨_, by simp, _, display_namedVersionedIndexInTable table index version⟩

theorem salt_tagged (context : CipherContext) :
    ∃ text, context.salted.salt = some (utf8Bytes text) ∧
      StartsWithTag ["tbl:", "versioned_index("] text := by
  cases context with
  | tableColumn table column =>
    rw [salted_tableColumn]
    exact ⟨_, rfl, _, by simp, _, rfl⟩
  | versionedIndexEntry table index version =>
    rw [salted_versionedIndexEntry]
    exact ⟨_, rfl, _, by simp, _, rfl⟩

theorem shares_info_iff {salt : Option Bytes} {info other : String} :
    Derivation.Shares ⟨salt, some (utf8Bytes info)⟩ ⟨salt, some (utf8Bytes other)⟩ ↔
      info = other := by
  simp only [Derivation.Shares, Option.some.injEq, reduceCtorEq, or_false, true_and]
  exact ⟨utf8Bytes_injective, congrArg utf8Bytes⟩

theorem identifiers_shares_iff :
    first.salted.Shares second.salted ↔ first.display = second.display := by
  simp only [Derivation.Shares, IdentifierContext.salted, Option.some.injEq, true_or, and_true]
  rw [← String.append_right_inj "ident_generator:"]
  exact ⟨utf8Bytes_injective, congrArg utf8Bytes⟩

theorem marked_tagged :
    StartsWithTag ["ident_generator:"] ("ident_generator:" ++ context.display) :=
  ⟨_, by simp, _, rfl⟩

theorem salted_apart (cipher : CipherContext) (generator : IdentifierContext) :
    cipher.salted.salt ≠ generator.salted.salt := by
  obtain ⟨text, isSalt, tagged⟩ := salt_tagged cipher
  rw [isSalt]
  intro same
  exact ne_of_tags (by decide) tagged (marked_tagged generator)
    (utf8Bytes_injective (Option.some.inj same))

theorem shares_iff_confuses (manager : KeyManager) (first second : DerivationContext) :
    (manager.derivation first).Shares (manager.derivation second) ↔
      manager.Confuses first second := by
  cases manager with
  | legacy | compatAwsLcHkdfSha256 =>
    rcases first with cipher | generator <;> rcases second with other | other
    · exact salted_shares_iff cipher other
    · exact iff_of_false (fun shares => salted_apart cipher other shares.1) id
    · exact iff_of_false (fun shares => salted_apart other generator shares.1.symm) id
    · exact (identifiers_shares_iff generator other).trans (display_eq_iff generator other)
  | rustCryptoHkdfSha256 =>
    rcases first with cipher | generator <;> rcases second with other | other <;>
      refine shares_info_iff.trans ?_
    · exact info_eq_iff cipher other
    · exact iff_of_false
        (ne_of_tags (by decide) (info_tagged cipher) (marked_tagged other)) id
    · exact iff_of_false
        (ne_of_tags (by decide) (info_tagged other) (marked_tagged generator)).symm id
    · rw [String.append_right_inj]
      exact display_eq_iff generator other
  | awsLcHkdfSha256 =>
    rcases first with cipher | generator <;> rcases second with other | other <;>
      refine shares_info_iff.trans ?_
    · exact info_eq_iff cipher other
    · exact iff_of_false
        (ne_of_tags (by decide) (info_tagged cipher) (display_tagged other)) id
    · exact iff_of_false
        (ne_of_tags (by decide) (info_tagged other) (display_tagged generator)).symm id
    · exact display_eq_iff generator other

/-! ## Names without separators -/

def DerivationContext.table : DerivationContext → ResolvedTableReference
  | .cipher (.tableColumn table _) => table
  | .cipher (.versionedIndexEntry table _ _) => table
  | .identifiers (.rowIdColumn table) => table
  | .identifiers (.namedIndexInTable table _) => table
  | .identifiers (.namedVersionedIndexInTable table _ _) => table

/-- The names of the table contain no separator, and the version is not zero. -/
structure DerivationContext.Separable (context : DerivationContext) : Prop where
  catalog : '.' ∉ context.table.catalog.toList
  schema : '.' ∉ context.table.schema.toList
  dots : '.' ∉ context.table.table.toList
  commas : ',' ∉ context.table.table.toList
  version : ∀ table index, context ≠ .cipher (.versionedIndexEntry table index (some 0))

theorem append_singleton_inj {first second rest otherRest : String}
    (absent : separator ∉ first.toList) (otherAbsent : separator ∉ second.toList) :
    first ++ (String.singleton separator ++ rest) =
        second ++ (String.singleton separator ++ otherRest) ↔
      first = second ∧ rest = otherRest := by
  rw [← String.toList_inj]
  simp only [String.toList_append, String.toList_singleton, List.singleton_append]
  rw [append_cons_inj_left absent otherAbsent, String.toList_inj, String.toList_inj]

theorem table_eq_of_display {table other : ResolvedTableReference} {rest otherRest : String}
    (catalog : '.' ∉ table.catalog.toList) (otherCatalog : '.' ∉ other.catalog.toList)
    (schema : '.' ∉ table.schema.toList) (otherSchema : '.' ∉ other.schema.toList)
    (absent : separator ∉ table.table.toList) (otherAbsent : separator ∉ other.table.toList)
    (same : displayTable table ++ String.singleton separator ++ rest =
      displayTable other ++ String.singleton separator ++ otherRest) :
    table = other ∧ rest = otherRest := by
  have dot : ("." : String) = String.singleton '.' := rfl
  rw [displayTable, displayTable, dot] at same
  simp only [String.append_assoc] at same
  obtain ⟨catalogs, later⟩ := (append_singleton_inj catalog otherCatalog).mp same
  obtain ⟨schemas, last⟩ := (append_singleton_inj schema otherSchema).mp later
  obtain ⟨tables, rests⟩ := (append_singleton_inj absent otherAbsent).mp last
  cases table
  cases other
  cases catalogs
  cases schemas
  cases tables
  exact ⟨rfl, rests⟩

theorem version_eq_of_getD {version other : Option UInt64} (notZero : version ≠ some 0)
    (otherNotZero : other ≠ some 0) (same : version.getD 0 = other.getD 0) : version = other := by
  cases version with
  | none =>
    cases other with
    | none => rfl
    | some value => exact absurd (congrArg some same.symm) otherNotZero
  | some value =>
    cases other with
    | none => exact absurd (congrArg some same) notZero
    | some otherValue => exact congrArg some same

theorem eq_of_confuses {manager : KeyManager} {first second : DerivationContext}
    (separable : first.Separable) (otherSeparable : second.Separable)
    (confuses : manager.Confuses first second) : first = second := by
  obtain ⟨catalog, schema, dots, commas, version⟩ := separable
  obtain ⟨otherCatalog, otherSchema, otherDots, otherCommas, otherVersion⟩ := otherSeparable
  rcases first with (⟨table, column⟩ | ⟨table, index, number⟩) |
    (table | ⟨table, index⟩ | ⟨table, index, number⟩) <;>
  rcases second with (⟨other, otherColumn⟩ | ⟨other, otherIndex, otherNumber⟩) |
    (other | ⟨other, otherIndex⟩ | ⟨other, otherIndex, otherNumber⟩) <;>
  try exact confuses.elim
  · obtain ⟨rfl, rfl⟩ := table_eq_of_display catalog otherCatalog schema otherSchema dots otherDots
      confuses.1
    rfl
  · have numbers : number = otherNumber := version_eq_of_getD
      (fun zero => version table index (zero ▸ rfl))
      (fun zero => otherVersion other otherIndex (zero ▸ rfl)) confuses.2
    subst numbers
    have texts := confuses.1
    split_ifs at texts
    · obtain ⟨rfl, rfl⟩ := table_eq_of_display catalog otherCatalog schema otherSchema commas
        otherCommas texts
      rfl
    · obtain ⟨rfl, rfl⟩ := table_eq_of_display catalog otherCatalog schema otherSchema dots
        otherDots texts
      rfl
  · have texts : displayTable table ++ String.singleton ',' ++ "" =
        displayTable other ++ String.singleton ',' ++ "" := by
      rw [show displayTable table = displayTable other from confuses]
    obtain ⟨rfl, -⟩ := table_eq_of_display catalog otherCatalog schema otherSchema commas
      otherCommas texts
    rfl
  · obtain ⟨rfl, rfl⟩ := table_eq_of_display catalog otherCatalog schema otherSchema commas
      otherCommas confuses
    rfl
  · obtain ⟨texts, rfl⟩ := confuses
    obtain ⟨rfl, rfl⟩ := table_eq_of_display catalog otherCatalog schema otherSchema commas
      otherCommas texts
    rfl

/-- Distinct contexts get distinct derivations exactly if the manager does not confuse them: they are
of different kinds, their versions differ, or their names spell different texts. In particular they
do so when the names of tables contain no separator and no version is zero. -/
theorem distinct_derivations_iff (manager : KeyManager) (first second : DerivationContext)
    (distinct : first ≠ second) :
    (¬(manager.derivation first).Shares (manager.derivation second) ↔
      ¬manager.Confuses first second) ∧
    (first.Separable → second.Separable →
      ¬(manager.derivation first).Shares (manager.derivation second)) :=
  ⟨not_congr (shares_iff_confuses manager first second),
    fun separable otherSeparable shares => distinct (eq_of_confuses separable otherSeparable
      ((shares_iff_confuses manager first second).mp shares))⟩

/-- The ciphers of two columns of one table get distinct derivations. -/
theorem distinct_derivations_columns :
    ¬(KeyManager.awsLcHkdfSha256.derivation
        (.cipher (.tableColumn ⟨"proxy", "app", "users"⟩ "name"))).Shares
      (KeyManager.awsLcHkdfSha256.derivation
        (.cipher (.tableColumn ⟨"proxy", "app", "users"⟩ "email"))) :=
  (distinct_derivations_iff _ _ _ (by decide)).2
    ⟨by decide, by decide, by decide, by decide, nofun⟩
    ⟨by decide, by decide, by decide, by decide, nofun⟩

/-- Every manager derives one key for the columns `e` of the tables `c.d` of `b` and `d` of `b.c`, and
one for the pages of the first version of an index and its metadata. -/
theorem dotted_names_share_a_key :
    DerivationContext.cipher (.tableColumn ⟨"a", "b", "c.d"⟩ "e") ≠
        .cipher (.tableColumn ⟨"a", "b.c", "d"⟩ "e") ∧
      DerivationContext.cipher (.versionedIndexEntry ⟨"a", "b", "c"⟩ "i" none) ≠
        .cipher (.versionedIndexEntry ⟨"a", "b", "c"⟩ "i" (some 0)) ∧
      ∀ manager : KeyManager,
        manager.derivation (.cipher (.tableColumn ⟨"a", "b", "c.d"⟩ "e")) =
          manager.derivation (.cipher (.tableColumn ⟨"a", "b.c", "d"⟩ "e")) ∧
        manager.derivation (.cipher (.versionedIndexEntry ⟨"a", "b", "c"⟩ "i" none)) =
          manager.derivation (.cipher (.versionedIndexEntry ⟨"a", "b", "c"⟩ "i" (some 0))) := by
  refine ⟨by decide, by decide, fun manager => ⟨?_, ?_⟩⟩
  · cases manager <;> rfl
  · cases manager <;> rfl

end SecureFusion.Crypto
