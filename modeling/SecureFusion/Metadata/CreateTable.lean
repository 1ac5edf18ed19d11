import SecureFusion.Library.Outcome

/-!
# The CREATE TABLE statement of the server

An encrypted column is declared as a blob. Its default value moves to the metadata, and
table-level constraints on it are dropped; both the names of the columns and the options of
the column are taken as they were written.
-/

namespace SecureFusion.Metadata

open Library List

/-! ## Statements -/

/-- Expressions of the parser: identifiers, and what is put together from other expressions. -/
inductive SqlExpr where
  | identifier (value : String)
  | compoundIdentifier (qualifiers : List String) (last : String)
  | literal (text : String)
  | compound (text : String) (first second : SqlExpr)
deriving DecidableEq

/-- The last parts of the names in an expression. -/
def identifiersInExpr : SqlExpr → List String
  | .identifier value => [value]
  | .compoundIdentifier _ last => [last]
  | .literal _ => []
  | .compound _ first second => identifiersInExpr first ++ identifiersInExpr second

inductive Token where
  | word (value : String)
  | other (text : String)
deriving DecidableEq

inductive ColumnOption where
  | null
  | notNull
  | default (expr : SqlExpr)
  | unique
  | primaryKey
  | check (expr : SqlExpr)
  | foreignKey (foreignTable : String) (referredColumns : List String)
  | characterSet (name : String)
  | collation (name : String)
  | dialectSpecific (tokens : List Token)
  | other (text : String)
deriving DecidableEq

def lowered (text : String) : List Char := text.toList.map Char.toLower

namespace ColumnOption

def hasWord (keyword : String) : ColumnOption → Bool
  | dialectSpecific tokens => tokens.any fun
    | .word value => lowered value = keyword.toList
    | .other _ => false
  | _ => false

/-- The option is the flag ENCRYPTED or DECRYPTED of the proxy. -/
def isFlag (option : ColumnOption) : Bool := option.hasWord "encrypted" || option.hasWord "decrypted"

def isDefault : ColumnOption → Bool
  | default _ => true
  | _ => false

def onPlaintext : ColumnOption → Bool
  | unique | check _ | foreignKey .. | characterSet _ | collation _ => true
  | _ => false

end ColumnOption

structure ColumnDef where
  name : String
  dataType : String
  options : List ColumnOption
deriving DecidableEq

inductive TableConstraint where
  | primaryKey (columns : List SqlExpr)
  | unique (columns : List SqlExpr)
  | index (columns : List SqlExpr)
  | fulltextOrSpatial (columns : List SqlExpr)
  | check (expr : SqlExpr)
  | foreignKey (columns : List String) (foreignTable : String)
deriving DecidableEq

/-- The columns that the proxy looks up for a constraint; primary keys are always forwarded. -/
def TableConstraint.identifiers : TableConstraint → List String
  | primaryKey _ => []
  | unique columns | index columns | fulltextOrSpatial columns => columns.flatMap identifiersInExpr
  | check expr => identifiersInExpr expr
  | foreignKey columns _ => columns

/-- The columns that a constraint refers to. -/
def TableConstraint.references : TableConstraint → List String
  | primaryKey columns => columns.flatMap identifiersInExpr
  | constraint => constraint.identifiers

/-- A column that the proxy looks up is one that the constraint refers to. -/
theorem TableConstraint.identifiers_subset (constraint : TableConstraint) :
    constraint.identifiers ⊆ constraint.references := by
  cases constraint with
  | primaryKey columns => exact nil_subset _
  | unique | index | fulltextOrSpatial | check | foreignKey => exact Subset.refl _

structure CreateTable where
  name : String
  columns : List ColumnDef
  constraints : List TableConstraint
  tableOptions : List String
deriving DecidableEq

namespace ColumnDef

def isEncryptedColumn (column : ColumnDef) : Bool := column.options.any (·.hasWord "encrypted")

def isDecryptedColumn (column : ColumnDef) : Bool := column.options.any (·.hasWord "decrypted")

/-- Removes the declarations of encryption. -/
def clearEncryptionFlag (column : ColumnDef) : ColumnDef :=
  { column with options := column.options.filter (!·.isFlag) }

/-- Takes the default out of a column. -/
def popDefaultValue (column : ColumnDef) : ColumnDef × Option SqlExpr :=
  ({ column with options := column.options.eraseP ColumnOption.isDefault },
    column.options.findSome? fun | .default expr => some expr | _ => none)

def isPrimaryKey (column : ColumnDef) : Bool := column.options.contains .primaryKey

def isNullable (column : ColumnDef) : Bool := !column.options.contains .notNull

def getCollation (column : ColumnDef) : Option String :=
  column.options.findSome? fun | .collation name => some name | _ => none

end ColumnDef

/-! ## Encrypted columns -/

structure BackendConfig where
  encryptByDefault : Bool
  rowBindingAad : Bool

/-- How statements are refused. -/
inductive Refusal where
  | plan (message : String)
  | execution (message : String)
  | unsupportedType (dataType : String)
  | panic
deriving DecidableEq

/-- The conversion of SQL types. -/
structure TypeConverter (Arrow : Type) where
  convertDataType : String → Option Arrow
  isInteger : Arrow → Bool
  withTimezone : Arrow → Arrow

structure EncryptedColumnMeta (Arrow : Type) where
  originalType : Arrow
  originalTypeRaw : String
  defaultValueRaw : Option SqlExpr
  nullable : Bool
  collation : Option String

section Statements

variable {Arrow : Type} (types : TypeConverter Arrow) (config : BackendConfig) {column : ColumnDef}

def leftAlone (isKey : Bool) (column : ColumnDef) : Except Refusal Bool :=
  if column.isEncryptedColumn then .ok false
  else if !config.encryptByDefault || isKey then .ok true
  else
    match types.convertDataType column.dataType with
    | none => .error (.unsupportedType column.dataType)
    | some type => .ok (types.isInteger type)

/-- An encrypted column as the server gets it, and its metadata. -/
def encryptColumn (isKey : Bool) (column : ColumnDef) :
    Except Refusal (ColumnDef × Option (EncryptedColumnMeta Arrow)) :=
  if isKey then .error (.execution
    s!"Invalid column definition: {column.name} is both in primary key and encrypted")
  else
    match types.convertDataType column.dataType with
    | none => .error .panic
    | some type =>
      let (popped, defaultValue) := column.popDefaultValue
      .ok ({ popped with dataType := "MEDIUMBLOB" }.clearEncryptionFlag,
        some ⟨types.withTimezone type, column.dataType, defaultValue, popped.isNullable,
          column.getCollation⟩)

/-- The column as the server gets it, and its metadata if it is encrypted. -/
def tryFromColumn (primaryKey : List String) (column : ColumnDef) :
    Except Refusal (ColumnDef × Option (EncryptedColumnMeta Arrow)) :=
  let isKey := column.isPrimaryKey || primaryKey.contains column.name
  if column.isEncryptedColumn && column.isDecryptedColumn then
    .error (.plan s!"Ambiguous column with both ENCRYPTED and DECRYPTED flags: {column.name}")
  else if column.isDecryptedColumn then .ok (column.clearEncryptionFlag, none)
  else do
    if ← leftAlone types config isKey column then .ok (column, none)
    else encryptColumn types isKey column

/-- The primary key of a statement, none if it has an expression that is no name. -/
def buildPrimaryKey (statement : CreateTable) : Option (List String) :=
  match statement.constraints.findSome? fun | .primaryKey columns => some columns | _ => none with
  | some columns => columns.mapM fun | .identifier value => some value | _ => none
  | none => some ((statement.columns.filter ColumnDef.isPrimaryKey).map ColumnDef.name)

structure EncryptedTableMeta (Arrow : Type) where
  encryptedColumns : List (String × EncryptedColumnMeta Arrow)
  rowBindingAad : Bool

/-- The statement as the server gets it, and the metadata of the table. -/
def buildFromStatement (primaryKey : List String) (statement : CreateTable) :
    Except Refusal (CreateTable × EncryptedTableMeta Arrow) := do
  let columns ← statement.columns.mapM (tryFromColumn types config primaryKey)
  let encrypted := columns.filterMap fun (column, data) => data.map fun data => (column.name, data)
  let drops (constraint : TableConstraint) : Bool :=
    constraint.identifiers.any (encrypted.map Prod.fst).contains
  .ok ({ statement with
      columns := columns.map Prod.fst
      constraints :=
        if encrypted.isEmpty then statement.constraints
        else statement.constraints.filter (!drops ·) },
    ⟨encrypted, !encrypted.isEmpty && config.rowBindingAad⟩)

/-- The statement that is sent and the metadata that is kept. -/
def newPlan (statement : CreateTable) : Except Refusal (CreateTable × EncryptedTableMeta Arrow) :=
  match buildPrimaryKey statement with
  | none => .error .panic
  | some primaryKey => buildFromStatement types config primaryKey statement

/-! ## What the server has to get -/

def encrypts (statement : CreateTable) (column : ColumnDef) : Bool :=
  let isKey := column.isPrimaryKey ||
    ((buildPrimaryKey statement).getD []).contains column.name
  !column.isDecryptedColumn && (column.isEncryptedColumn || config.encryptByDefault && !isKey &&
    !(types.convertDataType column.dataType).any types.isInteger)

def encryptedNames (statement : CreateTable) : List String :=
  (statement.columns.filter (encrypts types config statement)).map ColumnDef.name

variable {Name : Type} [DecidableEq Name] (fold : String → Name)

/-- The constraint refers to an encrypted column, in any letter case: `fold` takes a name to what
the server compares names by. -/
def refersToEncrypted (statement : CreateTable) (constraint : TableConstraint) : Bool :=
  constraint.references.any fun identifier =>
    (encryptedNames types config statement).any fun name => fold name = fold identifier

/-- The statement without anything about the plaintext of encrypted columns. -/
def expectedStatement (statement : CreateTable) : CreateTable where
  name := statement.name
  tableOptions := statement.tableOptions
  columns := statement.columns.map fun column =>
    if encrypts types config statement column then
      { column with
        dataType := "MEDIUMBLOB"
        options := column.options.filter fun option =>
          !option.isFlag && !option.isDefault && !option.onPlaintext }
    else column.clearEncryptionFlag
  constraints := statement.constraints.filter (!refersToEncrypted types config fold statement ·)

/-- Nothing is said about the plaintext of an encrypted column that the proxy does not remove. -/
structure Removable (statement : CreateTable) : Prop where
  options : ∀ column ∈ statement.columns, encrypts types config statement column = true →
    (∀ option ∈ column.options, option.onPlaintext = false) ∧
      column.options.countP ColumnOption.isDefault ≤ 1
  constraints : ∀ constraint ∈ statement.constraints,
    refersToEncrypted types config fold statement constraint = true →
      ∃ identifier ∈ constraint.identifiers, identifier ∈ encryptedNames types config statement

omit [DecidableEq Name] in
theorem filter_eq_filter_iff {α : Type} {kept wanted : α → Bool}
    (implies : ∀ item, wanted item = true → kept item = true) (items : List α) :
    items.filter kept = items.filter wanted ↔
      ∀ item ∈ items, kept item = true → wanted item = true := by
  constructor
  · intro same item isIn isKept
    have found := mem_filter.mpr ⟨isIn, isKept⟩
    rw [same] at found
    exact (mem_filter.mp found).2
  · intro all
    exact filter_congr fun item isIn =>
      Bool.eq_iff_iff.mpr ⟨all item isIn, implies item⟩

/-- A column as the server should get it. -/
def sentColumn (encrypted : Bool) (column : ColumnDef) : ColumnDef :=
  if encrypted then
    { column with
      dataType := "MEDIUMBLOB"
      options := (column.options.eraseP ColumnOption.isDefault).filter (!·.isFlag) }
  else column.clearEncryptionFlag

theorem clearEncryptionFlag_eq (plain : column.isEncryptedColumn = false)
    (noFlag : column.isDecryptedColumn = false) : column.clearEncryptionFlag = column := by
  have unflagged : column.options.filter (!·.isFlag) = column.options := by
    rw [filter_eq_self]
    intro option isIn
    have first := any_eq_false.mp plain option isIn
    have second := any_eq_false.mp noFlag option isIn
    simp [ColumnOption.isFlag, first, second]
  rw [ColumnDef.clearEncryptionFlag, unflagged]

variable {types config} {statement : CreateTable} {primaryKey : List String}

omit primaryKey in
theorem leftAlone_spec {isKey alone : Bool}
    (isAlone : leftAlone types config isKey column = .ok alone) :
    alone = !(column.isEncryptedColumn || config.encryptByDefault && !isKey &&
      !(types.convertDataType column.dataType).any types.isInteger) := by
  unfold leftAlone at isAlone
  split_ifs at isAlone with encrypted skipped
  · cases isAlone
    simp [encrypted]
  · cases isAlone
    have : (config.encryptByDefault && !isKey) = false := by
      rw [← Bool.not_not isKey, ← Bool.not_and, Bool.not_eq_true'] at skipped
      simpa using skipped
    simp [encrypted, this]
  · cases converted : types.convertDataType column.dataType with
    | none => simp [converted] at isAlone
    | some type =>
      simp only [converted, Except.ok.injEq] at isAlone
      simp_all

theorem tryFromColumn_spec (isKey : buildPrimaryKey statement = some primaryKey)
    {column sent : ColumnDef} {data : Option (EncryptedColumnMeta Arrow)}
    (built : tryFromColumn types config primaryKey column = .ok (sent, data)) :
    sent = sentColumn (encrypts types config statement column) column ∧
      data.isSome = encrypts types config statement column := by
  unfold tryFromColumn at built
  dsimp only at built
  split_ifs at built with ambiguous decrypted
  · cases built
    simp [encrypts, decrypted, sentColumn]
  · obtain ⟨alone, isAlone, built⟩ := Outcome.bind_eq_ok_iff.mp built
    have isEncrypted : encrypts types config statement column = !alone := by
      rw [leftAlone_spec isAlone, encrypts, isKey]
      simp [decrypted]
    rw [isEncrypted]
    cases alone with
    | true =>
      cases built
      have plain : column.isEncryptedColumn = false := by
        have spec := leftAlone_spec isAlone
        cases flag : column.isEncryptedColumn with
        | false => rfl
        | true => rw [flag, Bool.true_or] at spec; cases spec
      exact ⟨(clearEncryptionFlag_eq plain (eq_false_of_ne_true decrypted)).symm, rfl⟩
    | false =>
      change encryptColumn types _ column = _ at built
      unfold encryptColumn at built
      split_ifs at built
      split at built
      · cases built
      · cases built
        exact ⟨rfl, rfl⟩

theorem sentOptions_eq_iff (options : List ColumnOption) :
    (options.eraseP ColumnOption.isDefault).filter (!·.isFlag) =
        options.filter (fun option => !option.isFlag && !option.isDefault && !option.onPlaintext) ↔
      (∀ option ∈ options, option.onPlaintext = false) ∧
        options.countP ColumnOption.isDefault ≤ 1 := by
  have exclusive (option : ColumnOption) (plain : option.onPlaintext = true) :
      option.isFlag = false ∧ option.isDefault = false := by
    cases option <;> first | exact ⟨rfl, rfl⟩ | cases plain
  have unflagged (option : ColumnOption) (isDefault : option.isDefault = true) :
      option.isFlag = false := by
    cases option <;> first | rfl | cases isDefault
  have plainDefault (option : ColumnOption) (isDefault : option.isDefault = true) :
      option.onPlaintext = false := by
    cases plain : option.onPlaintext with
    | false => rfl
    | true => rw [(exclusive option plain).2] at isDefault; cases isDefault
  induction options with
  | nil => simp
  | cons option rest ih =>
    cases isDefault : option.isDefault with
    | true =>
      -- The first default value is gone; no other one may follow.
      rw [eraseP_cons_of_pos isDefault, filter_cons_of_neg (by simp [isDefault]),
        filter_eq_filter_iff (by simp +contextual), countP_cons_of_pos isDefault, forall_mem_cons]
      have none : countP ColumnOption.isDefault rest + 1 ≤ 1 ↔
          ∀ other ∈ rest, other.isDefault = false := by
        have zero : countP ColumnOption.isDefault rest + 1 ≤ 1 ↔
            countP ColumnOption.isDefault rest = 0 := by omega
        rw [zero, countP_eq_zero]
        simp
      rw [none]
      constructor
      · intro all
        have each (other) (isIn : other ∈ rest) :
            other.isDefault = false ∧ other.onPlaintext = false := by
          have wanted := all other isIn
          cases default : other.isDefault with
          | true => simp [unflagged other default, default] at wanted
          | false =>
            cases plain : other.onPlaintext with
            | true => simp [exclusive other plain, plain] at wanted
            | false => exact ⟨rfl, rfl⟩
        exact ⟨⟨plainDefault option isDefault, fun other isIn => (each other isIn).2⟩,
          fun other isIn => (each other isIn).1⟩
      · rintro ⟨⟨-, plain⟩, noDefault⟩ other isIn kept
        rw [noDefault other isIn, plain other isIn, kept]
        rfl
    | false =>
      rw [eraseP_cons_of_neg (by simp [isDefault]), countP_cons_of_neg (by simp [isDefault]),
        forall_mem_cons]
      cases plain : option.onPlaintext with
      | true =>
        rw [filter_cons_of_pos (by simp [exclusive option plain])]
        refine iff_of_false (fun same => ?_) (by simp)
        have kept : option ∈ (option :: rest).filter fun option =>
            !option.isFlag && !option.isDefault && !option.onPlaintext :=
          same ▸ mem_cons_self
        simp [plain] at kept
      | false =>
        cases flag : option.isFlag with
        | true =>
          rw [filter_cons_of_neg (by simp [flag]), filter_cons_of_neg (by simp [flag])]
          simpa using ih
        | false =>
          rw [filter_cons_of_pos (by simp [flag]),
            filter_cons_of_pos (by simp [flag, isDefault, plain]), cons_inj_right]
          simpa using ih

theorem columns_spec {columns : List ColumnDef}
    {results : List (ColumnDef × Option (EncryptedColumnMeta Arrow))}
    (each : List.Forall₂ (fun column result =>
      result.1 = sentColumn (encrypts types config statement column) column ∧
        result.2.isSome = encrypts types config statement column) columns results) :
    results.map Prod.fst = columns.map (fun column =>
        sentColumn (encrypts types config statement column) column) ∧
      (results.filterMap fun result => result.2.map fun data => (result.1.name, data)).map
          Prod.fst =
        (columns.filter (encrypts types config statement)).map ColumnDef.name := by
  induction each with
  | nil => exact ⟨rfl, rfl⟩
  | @cons column result columns results here _ ih =>
    obtain ⟨sent, data⟩ := result
    obtain ⟨rfl, isEncrypted⟩ := here
    have named : (sentColumn (encrypts types config statement column) column).name =
        column.name := by
      unfold sentColumn
      split_ifs <;> rfl
    refine ⟨by rw [map_cons, map_cons, ih.1], ?_⟩
    cases data with
    | none =>
      rw [filter_cons_of_neg (by simp [← isEncrypted])]
      exact ih.2
    | some data =>
      rw [filter_cons_of_pos isEncrypted.symm, map_cons, ← ih.2]
      simp [named]

theorem newPlan_spec {sent : CreateTable} {data : EncryptedTableMeta Arrow}
    (accepted : newPlan types config statement = .ok (sent, data)) :
    sent = { statement with
      columns := statement.columns.map fun column =>
        sentColumn (encrypts types config statement column) column
      constraints := statement.constraints.filter fun constraint =>
        !constraint.identifiers.any (encryptedNames types config statement).contains } := by
  unfold newPlan at accepted
  split at accepted
  · cases accepted
  case h_2 primaryKey isKey =>
    obtain ⟨results, built, done⟩ := Outcome.bind_eq_ok_iff.mp accepted
    obtain ⟨columns, names⟩ := columns_spec ((Outcome.mapM_eq_ok_iff.mp built).imp
      fun column result one => tryFromColumn_spec isKey one)
    cases done
    rw [CreateTable.mk.injEq]
    refine ⟨rfl, columns, ?_, rfl⟩
    rw [names]
    split_ifs with empty
    · have none : encryptedNames types config statement = [] := by
        rw [encryptedNames, ← names, isEmpty_iff.mp empty]
        rfl
      rw [none]
      exact (filter_eq_self.mpr (by simp)).symm
    · rfl

end Statements

/-- A table with an encrypted column, some options of it and a primary key. -/
def usersStatement (options : List ColumnOption) (key : String) : CreateTable where
  name := "users"
  columns := [⟨"id", "INT", []⟩,
    ⟨"email", "VARCHAR(80)", .dialectSpecific [.word "ENCRYPTED"] :: options⟩]
  constraints := [.primaryKey [.identifier key], .index [.identifier "id"],
    .index [.identifier "email"]]
  tableOptions := []

def unitTypes : TypeConverter Unit := ⟨fun _ => some (), fun _ => false, id⟩

end SecureFusion.Metadata
