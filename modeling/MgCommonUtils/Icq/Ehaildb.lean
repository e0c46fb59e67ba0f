import MgCommonUtils.Lib.CString
import MgCommonUtils.Lib.SortedTable
import MgCommonUtils.Lib.Transition

/-!
# The queues of icq

`insert`, `truncate_table` and `get_next` of `ehaildb.cpp`, over HailDB tables that are ordered by
`pos`. Every call of HailDB can fail, and which ones do is a parameter of the operation.

The number of the next row of a table, `cur_id`, is kept in the object only, and a new object starts
with 0 again. And `get_next` moves the cursor to the first row from the given position on and then
to the next one, whether or not the first one is the row of that position. `delivery_ok` is what
remains: in a run that inserts into no table that had rows when a process started, positions are new
and increase, and `get_next` gives the next row if it is asked for what follows a row that is there,
or if there is no next row.
-/

namespace MgCommonUtils.Icq

open MgCommonUtils.Lib

/-! ## The model -/

/-- A call of HailDB. -/
inductive Call where
  /-- `ib_trx_begin`. -/
  | trxBegin
  /-- `ib_trx_commit`. -/
  | trxCommit
  /-- `ib_cursor_open_table`. -/
  | cursorOpenTable
  /-- `ib_cursor_close`. -/
  | cursorClose
  /-- `ib_cursor_insert_row`. -/
  | cursorInsertRow
  /-- `ib_cursor_moveto`. -/
  | cursorMoveto
  /-- `ib_cursor_next`. -/
  | cursorNext
  /-- `ib_cursor_read_row`. -/
  | cursorReadRow
  /-- `ib_tuple_write_i64`. -/
  | tupleWriteI64
  /-- `ib_tuple_read_i64`. -/
  | tupleReadI64
  /-- `ib_col_set_value`. -/
  | colSetValue
  /-- `ib_table_truncate`. -/
  | tableTruncate
  deriving DecidableEq

/-- An error of HailDB. -/
inductive Err where
  /-- A row with the key is in the table, `DB_DUPLICATE_KEY`. -/
  | duplicateKey
  /-- The call fails for another reason. -/
  | call (c : Call)
  deriving DecidableEq

/-- `row`. -/
structure Row where
  /-- `pos`. -/
  pos : ℤ
  /-- `data`. -/
  data : Bytes
  deriving DecidableEq

/-- An object `ehaildb`, and the HailDB that it works on. -/
structure Ehaildb (Name : Type*) where
  /-- The committed rows of the tables that exist. -/
  tables : Name → Option (SortedTable ℤ Bytes)
  /-- The number of open transactions. -/
  trxs : ℕ
  /-- The number of open cursors. -/
  crsrs : ℕ
  /-- `tinfo`: the `cur_id` of each table. The map of the object makes it 0 when it is missing. -/
  tinfo : Name → ℤ

/-- `++` on an `int64_t`. -/
def incr (z : ℤ) : ℤ := (z + 1).bmod (2^64)

variable {Name : Type*} [DecidableEq Name]

/-- `insert`: the row, or the error that is printed before it returns `false`. The calls for which
`fails` is true fail. What a transaction has inserted that is not committed is in no table. -/
def Ehaildb.insert (s : Ehaildb Name) (fails : Call → Bool) (name : Name) (data : Bytes) :
    Ehaildb Name × Except Err Row :=
  if fails .trxBegin then (s, .error (.call .trxBegin))
  else
    let s := { s with trxs := s.trxs + 1 }
    match s.tables name with
    | none => (s, .error (.call .cursorOpenTable))
    | some t =>
      if fails .cursorOpenTable then (s, .error (.call .cursorOpenTable))
      else
        let s := { s with crsrs := s.crsrs + 1 }
        let pos := s.tinfo name
        let s := { s with tinfo := Function.update s.tinfo name (incr pos) }
        if fails .tupleWriteI64 then (s, .error (.call .tupleWriteI64))
        else if fails .colSetValue then (s, .error (.call .colSetValue))
        else if fails .cursorInsertRow then (s, .error (.call .cursorInsertRow))
        else
          match t.insert pos data with
          | none => (s, .error .duplicateKey)
          | some t =>
            if fails .cursorClose then (s, .error (.call .cursorClose))
            else
              let s := { s with crsrs := s.crsrs - 1 }
              if fails .trxCommit then (s, .error (.call .trxCommit))
              else
                ({ s with
                    trxs := s.trxs - 1
                    tables := Function.update s.tables name (some t) }, .ok ⟨pos, data⟩)

/-- `truncate_table`. -/
def Ehaildb.truncateTable (s : Ehaildb Name) (fails : Call → Bool) (name : Name) :
    Ehaildb Name × Bool :=
  match s.tables name with
  | none => (s, false)
  | some _ =>
    if fails .tableTruncate then (s, false)
    else ({ s with tables := Function.update s.tables name (some .empty) }, true)

omit [DecidableEq Name] in
/-- `get_next`: the row, or none where it returns `false`. -/
def Ehaildb.getNext (s : Ehaildb Name) (fails : Call → Bool) (name : Name) (pos : ℤ) :
    Ehaildb Name × Option Row :=
  if fails .trxBegin then (s, none)
  else
    let s := { s with trxs := s.trxs + 1 }
    match s.tables name with
    | none => (s, none)
    | some t =>
      if fails .cursorOpenTable then (s, none)
      else
        let s := { s with crsrs := s.crsrs + 1 }
        if fails .tupleWriteI64 then (s, none)
        else if fails .cursorMoveto then (s, none)
        else if fails .cursorNext then (s, none)
        else
          match (t.seekGe pos).tail.head? with
          -- `ib_cursor_moveto` or `ib_cursor_next` has met the end of the table.
          | none => (s, none)
          | some r =>
            if fails .cursorReadRow then (s, none)
            else if fails .tupleReadI64 then (s, none)
            else if fails .cursorClose then (s, none)
            else
              let s := { s with crsrs := s.crsrs - 1 }
              if fails .trxCommit then (s, none)
              else ({ s with trxs := s.trxs - 1 }, some ⟨r.1, r.2⟩)

omit [DecidableEq Name] in
/-- The process ends, and another one makes a new object. -/
def Ehaildb.restart (s : Ehaildb Name) : Ehaildb Name :=
  { s with trxs := 0, crsrs := 0, tinfo := fun _ => 0 }

/-! ## Runs -/

/-- A step of a run. -/
inductive Label (Name : Type*) where
  /-- `insert`. -/
  | insert (fails : Call → Bool) (name : Name) (data : Bytes)
  /-- `truncate_table`. -/
  | truncateTable (fails : Call → Bool) (name : Name)
  /-- `get_next`. -/
  | getNext (fails : Call → Bool) (name : Name) (pos : ℤ)
  /-- The process ends and another one starts. -/
  | restart

/-- The object, the positions that there have been rows at, and the tables that are older than the
object. -/
structure Hist (Name : Type*) where
  /-- The object. -/
  db : Ehaildb Name
  /-- The positions of all rows that have been inserted into a table. -/
  used : Name → List ℤ
  /-- A process has started after a row was inserted into the table. -/
  restarted : Name → Bool

/-- The state after a step. -/
def Hist.step (h : Hist Name) : Label Name → Hist Name
  | .insert fails name data =>
    match h.db.insert fails name data with
    | (db, .ok r) => { h with db := db, used := Function.update h.used name (r.pos :: h.used name) }
    | (db, .error _) => { h with db := db }
  | .truncateTable fails name => { h with db := (h.db.truncateTable fails name).1 }
  | .getNext fails name pos => { h with db := (h.db.getNext fails name pos).1 }
  | .restart =>
    { h with
      db := h.db.restart
      restarted := fun name => h.restarted name || !(h.used name).isEmpty }

variable (Name) in
/-- The runs of a new object on empty tables. -/
def system : Lts (Hist Name) (Label Name) where
  init h := (∀ name, h.used name = [] ∧ h.db.tinfo name = 0 ∧ h.restarted name = false) ∧
    ∀ name t, h.db.tables name = some t → t.rows = []
  step h a := some (h.step a)

/-- A step does what a queue needs: an insertion that succeeds gets a new position, greater than all
before it, none fails because its position is not new, and what follows a position is the first row
behind it, if no call of HailDB fails. -/
def Hist.StepOk (h : Hist Name) : Label Name → Prop
  | .insert fails name data =>
    match (h.db.insert fails name data).2 with
    | .ok r => ∀ p ∈ h.used name, p < r.pos
    | .error e => e ≠ .duplicateKey
  | .getNext fails name pos => ∀ t, h.db.tables name = some t → (∀ c, fails c = false) →
      t.IsSucc pos ((h.db.getNext fails name pos).2.map fun r => (r.pos, r.data))
  | _ => True

omit [DecidableEq Name] in
/-- What the steps of a run must meet: an insertion is into a table without rows from before the
start of the process, and `cur_id` does not run over. -/
def Hist.Safe (h : Hist Name) : Label Name → Prop
  | .insert _ name _ => h.restarted name = false ∧ h.db.tinfo name < 2^63 - 1
  | _ => True

omit [DecidableEq Name] in
/-- What a step must meet to do what a queue needs: an insertion is into a table without rows from
before the start of the process, and `get_next` is asked for what follows a row that is there, or
nothing follows the position. -/
def Hist.Follows (h : Hist Name) : Label Name → Prop
  | .insert _ name _ => h.restarted name = false
  | .getNext _ name pos =>
    ∀ t, h.db.tables name = some t → t.HasKey pos ∨ ∀ r ∈ t.rows, r.1 ≤ pos
  | _ => True

/-! ## The operations -/

/-- What an insertion does: it fails before it takes a number or after it, it finds its number in
the table, or it adds a row with the number. -/
def InsertSpec (s : Ehaildb Name) (name : Name) (data : Bytes) :
    Ehaildb Name × Except Err Row → Prop
  | (s', .error (.call _)) => s'.tables = s.tables ∧ (s'.tinfo = s.tinfo ∨
      s'.tinfo = Function.update s.tinfo name (incr (s.tinfo name)))
  | (_, .error .duplicateKey) => ∃ t, s.tables name = some t ∧ t.HasKey (s.tinfo name)
  | (s', .ok r) => r = ⟨s.tinfo name, data⟩ ∧
      s'.tinfo = Function.update s.tinfo name (incr (s.tinfo name)) ∧
      ∃ t t', s.tables name = some t ∧ t.insert (s.tinfo name) data = some t' ∧
        s'.tables = Function.update s.tables name (some t')

/-- An insertion does what it does in whichever call it ends. -/
theorem Ehaildb.insert_spec (s : Ehaildb Name) (fails : Call → Bool) (name : Name) (data : Bytes) :
    InsertSpec s name data (s.insert fails name data) := by
  unfold Ehaildb.insert
  by_cases hbegin : fails .trxBegin = true
  · rw [if_pos hbegin]
    exact ⟨rfl, Or.inl rfl⟩
  rw [if_neg hbegin]
  dsimp only
  cases ht : s.tables name with
  | none => exact ⟨rfl, Or.inl rfl⟩
  | some t =>
    dsimp only
    by_cases hopen : fails .cursorOpenTable = true
    · rw [if_pos hopen]
      exact ⟨rfl, Or.inl rfl⟩
    rw [if_neg hopen]
    -- From here on the number is taken.
    by_cases hpos : fails .tupleWriteI64 = true
    · rw [if_pos hpos]
      exact ⟨rfl, Or.inr rfl⟩
    rw [if_neg hpos]
    by_cases hdata : fails .colSetValue = true
    · rw [if_pos hdata]
      exact ⟨rfl, Or.inr rfl⟩
    rw [if_neg hdata]
    by_cases hinsert : fails .cursorInsertRow = true
    · rw [if_pos hinsert]
      exact ⟨rfl, Or.inr rfl⟩
    rw [if_neg hinsert]
    cases hrow : t.insert (s.tinfo name) data with
    | none => exact ⟨t, ht, SortedTable.insert_eq_none.mp hrow⟩
    | some t' =>
      dsimp only
      -- The row is inserted, and the transaction is not committed yet.
      by_cases hclose : fails .cursorClose = true
      · rw [if_pos hclose]
        exact ⟨rfl, Or.inr rfl⟩
      rw [if_neg hclose]
      by_cases hcommit : fails .trxCommit = true
      · rw [if_pos hcommit]
        exact ⟨rfl, Or.inr rfl⟩
      rw [if_neg hcommit]
      exact ⟨rfl, rfl, t, t', ht, hrow, rfl⟩

omit [DecidableEq Name] in
/-- An operation leaves the tables and the numbers as they are. -/
def Ehaildb.Keeps (s : Ehaildb Name) (x : Ehaildb Name × Option Row) : Prop :=
  x.1.tables = s.tables ∧ x.1.tinfo = s.tinfo

omit [DecidableEq Name] in
/-- It does if it does in both branches. -/
theorem Ehaildb.Keeps.ite {s : Ehaildb Name} {c : Prop} [Decidable c]
    {x y : Ehaildb Name × Option Row} (hx : s.Keeps x) (hy : s.Keeps y) :
    s.Keeps (if c then x else y) := by
  split_ifs
  · exact hx
  · exact hy

omit [DecidableEq Name] in
/-- `get_next` does. -/
theorem Ehaildb.getNext_keeps (s : Ehaildb Name) (fails : Call → Bool) (name : Name) (pos : ℤ) :
    s.Keeps (s.getNext fails name pos) := by
  unfold Ehaildb.getNext
  refine .ite ⟨rfl, rfl⟩ ?_
  dsimp only
  cases s.tables name with
  | none => exact ⟨rfl, rfl⟩
  | some t =>
    -- Opening the cursor, writing the key and moving.
    refine .ite ⟨rfl, rfl⟩ (.ite ⟨rfl, rfl⟩ (.ite ⟨rfl, rfl⟩ (.ite ⟨rfl, rfl⟩ ?_)))
    cases (t.seekGe pos).tail.head? with
    | none => exact ⟨rfl, rfl⟩
    | some r =>
      -- Reading the row and closing.
      refine .ite ⟨rfl, rfl⟩ (.ite ⟨rfl, rfl⟩ (.ite ⟨rfl, rfl⟩ (.ite ⟨rfl, rfl⟩ ?_)))
      exact ⟨rfl, rfl⟩

omit [DecidableEq Name] in
/-- `get_next` gives the row behind the first row from the position on, if no call fails. -/
theorem Ehaildb.getNext_snd {s : Ehaildb Name} {fails : Call → Bool} (hfails : ∀ c, fails c = false)
    {name : Name} {t : SortedTable ℤ Bytes} (ht : s.tables name = some t) (pos : ℤ) :
    (s.getNext fails name pos).2.map (fun r => (r.pos, r.data)) = (t.seekGe pos).tail.head? := by
  unfold Ehaildb.getNext
  cases hnext : (t.seekGe pos).tail.head? with
  | none => simp [hfails, ht, hnext]
  | some r => simp [hfails, ht, hnext]

/-- `truncate_table` leaves no rows, or everything as it is. -/
theorem Ehaildb.truncateTable_fst (s : Ehaildb Name) (fails : Call → Bool) (name : Name) :
    (s.truncateTable fails name).1 = s ∨ (s.truncateTable fails name).1 =
      { s with tables := Function.update s.tables name (some .empty) } := by
  unfold Ehaildb.truncateTable
  split
  · exact Or.inl rfl
  · split_ifs
    · exact Or.inl rfl
    · exact Or.inr rfl

/-! ## The numbers of a table -/

/-- The next number of a table is behind all rows that there have been, unless some of them are from
before the start of the process. -/
structure Hist.Inv (h : Hist Name) : Prop where
  /-- `cur_id` counts from 0. -/
  nonneg : ∀ name, 0 ≤ h.db.tinfo name
  /-- Positions that have been used are before `cur_id`. -/
  used_lt : ∀ name, h.restarted name = false → ∀ p ∈ h.used name, p < h.db.tinfo name
  /-- The rows of a table are at positions that have been used. -/
  rows_used : ∀ name t, h.db.tables name = some t → ∀ r ∈ t.rows, r.1 ∈ h.used name

/-- `cur_id` does not run over before its last value. -/
theorem incr_eq {z : ℤ} (h0 : 0 ≤ z) (h : z < 2^63 - 1) : incr z = z + 1 :=
  Int.bmod_eq_of_le (by omega) (by omega)

omit [DecidableEq Name] in
/-- What changes neither the tables nor the numbers keeps it. -/
theorem Hist.Inv.frame {h : Hist Name} (hi : h.Inv) {db : Ehaildb Name}
    (htables : db.tables = h.db.tables) (htinfo : db.tinfo = h.db.tinfo) :
    Hist.Inv { h with db := db } := by
  refine ⟨fun n => ?_, fun n => ?_, fun n t ht => hi.rows_used n t (htables ▸ ht)⟩
  · show 0 ≤ db.tinfo n
    rw [htinfo]
    exact hi.nonneg n
  · show h.restarted n = false → ∀ p ∈ h.used n, p < db.tinfo n
    rw [htinfo]
    exact hi.used_lt n

/-- Taking a number keeps it. -/
theorem Hist.Inv.take {h : Hist Name} (hi : h.Inv) {name : Name}
    (hmax : h.db.tinfo name < 2^63 - 1) {db : Ehaildb Name} (htables : db.tables = h.db.tables)
    (htinfo : db.tinfo = Function.update h.db.tinfo name (incr (h.db.tinfo name))) :
    Hist.Inv { h with db := db } := by
  have hle (n : Name) : h.db.tinfo n ≤ db.tinfo n := by
    rw [htinfo]
    by_cases hn : n = name
    · rw [hn, Function.update_self, incr_eq (hi.nonneg name) hmax]
      omega
    · rw [Function.update_of_ne hn]
  refine ⟨fun n => (hi.nonneg n).trans (hle n), fun n hnew p hp => ?_, fun n t ht => ?_⟩
  · exact lt_of_lt_of_le (hi.used_lt n hnew p hp) (hle n)
  · exact hi.rows_used n t (htables ▸ ht)

/-- An insertion with a number that is not in the table keeps it. -/
theorem Hist.Inv.insertRow {h : Hist Name} (hi : h.Inv) {name : Name}
    (hmax : h.db.tinfo name < 2^63 - 1) {t t' : SortedTable ℤ Bytes} {data : Bytes}
    (ht : h.db.tables name = some t) (hinsert : t.insert (h.db.tinfo name) data = some t')
    {db : Ehaildb Name} (htables : db.tables = Function.update h.db.tables name (some t'))
    (htinfo : db.tinfo = Function.update h.db.tinfo name (incr (h.db.tinfo name))) :
    Hist.Inv { h with
      db := db, used := Function.update h.used name (h.db.tinfo name :: h.used name) } := by
  have hincr := incr_eq (hi.nonneg name) hmax
  refine ⟨fun n => ?_, fun n hnew p hp => ?_, fun n u hu r hr => ?_⟩
  · show 0 ≤ db.tinfo n
    rw [htinfo]
    by_cases hn : n = name
    · have hnonneg := hi.nonneg name
      rw [hn, Function.update_self, hincr]
      omega
    · rw [Function.update_of_ne hn]
      exact hi.nonneg n
  · show p < db.tinfo n
    simp only at hp
    rw [htinfo]
    by_cases hn : n = name
    · subst hn
      rw [Function.update_self] at hp
      rw [Function.update_self, hincr]
      rcases List.mem_cons.mp hp with rfl | hp
      · omega
      · have hlt := hi.used_lt n hnew p hp
        omega
    · rw [Function.update_of_ne hn] at hp ⊢
      exact hi.used_lt n hnew p hp
  · simp only at hu ⊢
    rw [htables] at hu
    by_cases hn : n = name
    · subst hn
      rw [Function.update_self] at hu ⊢
      obtain rfl := Option.some.inj hu
      rcases (SortedTable.mem_insert hinsert).mp hr with rfl | hr
      · exact List.mem_cons_self
      · exact List.mem_cons_of_mem _ (hi.rows_used n t ht r hr)
    · rw [Function.update_of_ne hn] at hu ⊢
      exact hi.rows_used n u hu r hr

omit [DecidableEq Name] in
/-- A number that is not in a table yet. -/
theorem Hist.Inv.not_hasKey {h : Hist Name} (hi : h.Inv) {name : Name}
    (hnew : h.restarted name = false) {t : SortedTable ℤ Bytes} (ht : h.db.tables name = some t) :
    ¬ t.HasKey (h.db.tinfo name) := by
  rintro ⟨r, hr, hkey⟩
  have hlt := hi.used_lt name hnew r.1 (hi.rows_used name t ht r hr)
  omega

/-- Every safe step keeps it. -/
theorem Hist.Inv.step {h : Hist Name} (hi : h.Inv) {a : Label Name} (ha : h.Safe a) :
    (h.step a).Inv := by
  cases a with
  | insert fails name data =>
    obtain ⟨hnew, hmax⟩ := ha
    have hspec := h.db.insert_spec fails name data
    rcases hres : h.db.insert fails name data with ⟨db, res⟩
    rw [hres] at hspec
    simp only [Hist.step, hres]
    match res, hspec with
    | .error (.call c), ⟨htables, htinfo⟩ =>
      rcases htinfo with htinfo | htinfo
      · exact hi.frame htables htinfo
      · exact hi.take hmax htables htinfo
    | .error .duplicateKey, ⟨t, ht, hkey⟩ => exact absurd hkey (hi.not_hasKey hnew ht)
    | .ok r, ⟨hr, htinfo, t, t', ht, hinsert, htables⟩ =>
      subst hr
      exact hi.insertRow hmax ht hinsert htables htinfo
  | truncateTable fails name =>
    rcases h.db.truncateTable_fst fails name with hdb | hdb
    · simp only [Hist.step, hdb]
      exact hi
    · simp only [Hist.step, hdb]
      refine ⟨hi.nonneg, hi.used_lt, fun n t ht r hr => ?_⟩
      simp only at ht
      by_cases hn : n = name
      · rw [hn, Function.update_self] at ht
        obtain rfl := Option.some.inj ht
        exact absurd hr List.not_mem_nil
      · rw [Function.update_of_ne hn] at ht
        exact hi.rows_used n t ht r hr
  | getNext fails name pos =>
    obtain ⟨htables, htinfo⟩ := h.db.getNext_keeps fails name pos
    exact hi.frame htables htinfo
  | restart =>
    -- A table that counts as new now has had no rows, so 0 is a new number for it.
    refine ⟨fun n => le_rfl, fun n hnew p hp => ?_, hi.rows_used⟩
    obtain ⟨-, hempty⟩ := Bool.or_eq_false_iff.mp hnew
    rw [Bool.not_eq_false', List.isEmpty_iff] at hempty
    change p ∈ h.used n at hp
    rw [hempty] at hp
    cases hp

/-- It holds throughout a run whose steps are safe. -/
theorem Hist.inv {h : Hist Name} (hr : (system Name).Reach Hist.Safe h) : h.Inv := by
  refine hr.invariant ?_ ?_
  · rintro s ⟨hnew, hempty⟩
    refine ⟨fun n => (hnew n).2.1.ge, fun n _ p hp => ?_, fun n t ht r hr => ?_⟩
    · rw [(hnew n).1] at hp
      cases hp
    · rw [hempty n t ht] at hr
      cases hr
  · rintro s a t hs ha hstep
    obtain rfl := Option.some.inj hstep
    exact hs.step ha

/-- In every run whose steps are safe, a step does what a queue needs: a position is new and greater
than all before it, if the table has no rows from before the start of the process, and what follows
a position is the first row behind it, if the position has a row or nothing follows it. -/
theorem delivery_ok {h : Hist Name} (hr : (system Name).Reach Hist.Safe h) {a : Label Name}
    (ha : h.Follows a) : h.StepOk a := by
  have hi := Hist.inv hr
  cases a with
  | insert fails name data =>
    have hspec := h.db.insert_spec fails name data
    rcases hres : h.db.insert fails name data with ⟨db, res⟩
    rw [hres] at hspec
    simp only [Hist.StepOk, hres]
    match res, hspec with
    | .error (.call c), _ => exact fun heq => by cases heq
    | .error .duplicateKey, ⟨t, ht, hkey⟩ => exact absurd hkey (hi.not_hasKey ha ht)
    | .ok r, ⟨hr, _⟩ =>
      subst hr
      exact hi.used_lt name ha
  | truncateTable fails name => trivial
  | getNext fails name pos =>
    intro t ht hfails
    rw [Ehaildb.getNext_snd hfails ht]
    exact (t.isSucc_iff pos).mpr (ha t ht)
  | restart => trivial

/-- A new object on one empty table. -/
def Hist.new : Hist Unit :=
  ⟨⟨fun _ => some .empty, 0, 0, fun _ => 0⟩, fun _ => [], fun _ => false⟩

/-- Two insertions, and what follows the first row. -/
theorem delivery_ok_two :
    ∃ h, (system Unit).run Hist.new
      [.insert (fun _ => false) () [97], .insert (fun _ => false) () [98]] = some h ∧
      h.StepOk (.getNext (fun _ => false) () 0) := by
  have hstart : (system Unit).Reach Hist.Safe Hist.new := by
    refine .init ⟨fun _ => ⟨rfl, rfl, rfl⟩, fun _ t ht => ?_⟩
    obtain rfl := Option.some.inj ht
    rfl
  have hsafe : (system Unit).RunOk Hist.Safe Hist.new
      [.insert (fun _ => false) () [97], .insert (fun _ => false) () [98]] := by
    have hfirst : (0 : ℤ) < 2^63 - 1 := by norm_num
    have hsecond : incr 0 < 2^63 - 1 := by decide
    refine ⟨⟨rfl, hfirst⟩, fun t ht => ⟨?_, fun _ _ => trivial⟩⟩
    obtain rfl := Option.some.inj ht
    exact ⟨rfl, hsecond⟩
  refine ⟨_, rfl, delivery_ok (hstart.run hsafe rfl) fun t ht => Or.inl ?_⟩
  obtain rfl := Option.some.inj ht
  exact ⟨(0, [97]), by decide, rfl⟩

/-- After a restart the first insertion finds its number in the table. And `get_next(-1)` does not
give the only row of a table, which is at 0. -/
theorem not_delivery :
    (∃ h, (system Unit).run Hist.new [.insert (fun _ => false) () [97], .restart] = some h ∧
      ¬ h.StepOk (.insert (fun _ => false) () [98])) ∧
    ∃ h, (system Unit).run Hist.new [.insert (fun _ => false) () [97]] = some h ∧
      ¬ h.StepOk (.getNext (fun _ => false) () (-1)) := by
  refine ⟨⟨_, rfl, fun hok => ?_⟩, ⟨_, rfl, fun hok => ?_⟩⟩
  · exact hok rfl
  · have hnone := hok _ rfl fun _ => rfl
    exact absurd (hnone (0, [97]) (by decide)) (by decide)

end MgCommonUtils.Icq
