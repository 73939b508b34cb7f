import EnvVault.Pagination
import EnvVault.VersionChain
import EnvVault.SerialCalls
import Mathlib.Data.List.Sort

/-!
# The pages of the audit log

`list_by_organization` orders by `created_at` alone, which is the start of the transaction
and need not tell two entries apart: PostgreSQL may return entries with equal times in
another order for each page.
-/
namespace EnvVault
open EnvVault.Relational EnvVault.Transactions EnvVault.Pagination

/-- What `ORDER BY created_at DESC` may make of the rows it finds. -/
structure OrderBy where
  sort : List AuditLog → List AuditLog
  descending : ∀ rows, Descending AuditLog.createdAt rows (sort rows)

theorem descending_mergeSort (rows : List AuditLog) : Descending AuditLog.createdAt rows
    (rows.mergeSort fun a b => decide (b.createdAt ≤ a.createdAt)) where
  perm := List.mergeSort_perm _ _
  sorted := by
    have hsorted : (rows.mergeSort fun a b => decide (b.createdAt ≤ a.createdAt)).Pairwise
        fun a b => decide (b.createdAt ≤ a.createdAt) = true := by
      refine List.pairwise_mergeSort (fun a b c hab hbc => ?_) (fun a b => ?_) rows
      · exact decide_eq_true ((of_decide_eq_true hbc).trans (of_decide_eq_true hab))
      · simpa using Nat.le_total b.createdAt a.createdAt
    exact hsorted.imp fun h => of_decide_eq_true h

/-- Entries with equal times as they are stored. -/
def OrderBy.stable : OrderBy := ⟨_, descending_mergeSort⟩

section
variable (order : OrderBy) (uow : UnitOfWork)

/-- `AuditLogRepository.list_by_organization`, with the order in which this query returns
its rows. -/
def AuditLogRepository.listInOrder (organizationId : UUID) (limit offset : ℕ) :
    Tx (List AuditLog) := do
  let rows ← uow.select .auditLogs fun a => a.organizationId == some organizationId
  return ((order.sort rows).drop offset).take limit

/-- `AuditService.list_for_organization`, likewise. -/
def AuditService.listInOrder (organizationId actorUserId : UUID) (limit offset : ℕ) :
    Tx (List AuditLog) := do
  let _ ← requireOrgRole uow organizationId actorUserId .viewer
  AuditLogRepository.listInOrder order uow organizationId limit offset

example (organizationId actorUserId : UUID) (limit offset : ℕ) :
    AuditService.listForOrganization uow organizationId actorUserId limit offset =
      AuditService.listInOrder .stable uow organizationId actorUserId limit offset := rfl

end

/-- The entries of an organization. -/
def entriesOf (db : Db) (organizationId : UUID) : List AuditLog :=
  (db .auditLogs).filter fun a : AuditLog => a.organizationId == some organizationId

/-- A member reads the log page by page, each query with an order of its own; the pages up
to the first empty one are the entries of the organization, each once and in order. -/
def PagesPartition (uow : UnitOfWork) (inputs : ℕ → Input) (db : Db) (m : Membership)
    (limit : ℕ) (orders : ℕ → OrderBy) : Prop :=
  ∃ (pages : ℕ → List AuditLog) (out : List AuditLog),
    (∀ k, (AuditService.listInOrder (orders k) uow m.organizationId m.userId limit
      (k * limit)).Answers vaultEngine inputs [] db (pages k)) ∧
    Collected pages out ∧ Descending AuditLog.createdAt (entriesOf db m.organizationId) out

section
variable {uow : UnitOfWork} {inputs : ℕ → Input} {db : Db} {m : Membership}

theorem Acts.found_auditLogs (h : Acts uow db m) :
    uow.found .auditLogs (fun a : AuditLog => a.organizationId == some m.organizationId) db =
      entriesOf db m.organizationId := by
  refine List.filter_congr fun a _ => ?_
  by_cases ha : a.organizationId = some m.organizationId
  · rw [h.may_tenant (t := .auditLogs) (by decide) ha, Bool.true_and]
  · simp [ha]

/-- What a member reads as a page. -/
theorem Acts.answers_listInOrder (h : Acts uow db m) (hdb : vaultSchema.Valid db)
    (order : OrderBy) (limit number : ℕ) :
    (AuditService.listInOrder order uow m.organizationId m.userId limit
      (number * limit)).Answers vaultEngine inputs [] db
        (page limit number (order.sort (entriesOf db m.organizationId))) := by
  refine (h.answers_requireOrgRole hdb (Nat.zero_le _)).bind ?_
  rw [← h.found_auditLogs]
  exact (answers_select _).bind Prog.answers_ret

/-- A call gives one answer. -/
theorem answers_unique {p : Tx (List AuditLog)} {a b : List AuditLog}
    (ha : p.Answers vaultEngine inputs [] db a) (hb : p.Answers vaultEngine inputs [] db b) :
    a = b := by
  obtain ⟨k, hk⟩ := ha 0
  obtain ⟨k', hk'⟩ := hb 0
  exact Except.ok.inj (congrArg Prod.fst (hk.symm.trans hk'))

/-- The pages of a member are the pages of the entries in the orders of the queries. -/
theorem Acts.pagesPartition_iff (h : Acts uow db m) (hdb : vaultSchema.Valid db) (limit : ℕ)
    (orders : ℕ → OrderBy) : PagesPartition uow inputs db m limit orders ↔
      ∃ out, Collected (fun k => page limit k ((orders k).sort (entriesOf db m.organizationId)))
        out ∧ Descending AuditLog.createdAt (entriesOf db m.organizationId) out := by
  constructor
  · rintro ⟨pages, out, hpages, hcollected, hout⟩
    have heq : pages = fun k => page limit k ((orders k).sort (entriesOf db m.organizationId)) :=
      funext fun k => answers_unique (hpages k) (h.answers_listInOrder hdb (orders k) limit k)
    exact ⟨out, heq ▸ hcollected, hout⟩
  · rintro ⟨out, hcollected, hout⟩
    exact ⟨_, out, fun k => h.answers_listInOrder hdb (orders k) limit k, hcollected, hout⟩

end

/-- For any entries of the organization, any limit and any member: however the queries order
the entries with equal times, the pages up to the first empty one are the entries of the
organization, each once and from the newest to the oldest, if and only if no page ends
between two entries with equal times. -/
theorem audit_pages_iff (uow : UnitOfWork) (inputs : ℕ → Input) (db : Db) (m : Membership)
    (hdb : vaultSchema.Valid db) (hacts : Acts uow db m) (limit : ℕ) (hlimit : 0 < limit) :
    (∀ orders : ℕ → OrderBy, PagesPartition uow inputs db m limit orders) ↔
      Aligned AuditLog.createdAt limit (entriesOf db m.organizationId) := by
  have hnodup : (entriesOf db m.organizationId).Nodup :=
    (List.Nodup.of_map _ (hdb.keys .auditLogs)).filter _
  have hstable := OrderBy.stable.descending (entriesOf db m.organizationId)
  constructor
  · intro h
    refine (partitioned_iff hlimit hnodup hstable).mp fun orders horders => ?_
    -- The queries return the entries in these orders, and any other rows as they are stored.
    have hpartition := h fun k => ⟨fun rows => if rows = entriesOf db m.organizationId then orders k
      else OrderBy.stable.sort rows, fun rows => by
        split
        · rename_i heq
          exact heq ▸ horders k
        · exact OrderBy.stable.descending rows⟩
    rw [hacts.pagesPartition_iff hdb] at hpartition
    simpa using hpartition
  · intro haligned orders
    rw [hacts.pagesPartition_iff hdb]
    exact haligned.collected hlimit fun k => (orders k).descending _

/-- The order in which the query returns ties the other way round. -/
def OrderBy.reversed : OrderBy where
  sort rows := rows.reverse.mergeSort fun a b => decide (b.createdAt ≤ a.createdAt)
  descending rows := ⟨(descending_mergeSort rows.reverse).perm.trans rows.reverse_perm,
    (descending_mergeSort rows.reverse).sorted⟩

/-- The reveal of secret 50 by user 1. -/
def revealEntry (id : UUID) (createdAt : Timestamp) : AuditLog :=
  ⟨id, some 10, some 1, .reveal, .secret, some 50, none, createdAt⟩

def auditedDb (entries : List AuditLog) : Db
  | .auditLogs => entries
  | t => acmeDb t

/-- Two reveals with the same time, read with a limit of one: the second query orders them
the other way, so the first entry is read twice and the second one never. -/
theorem audit_page_repeats : ¬ PagesPartition (sampleUow 1 10) sampleInput
    (auditedDb [revealEntry 30 5, revealEntry 31 5]) ⟨11, 1, 10, .owner, none, 0⟩ 1
      (fun k => if k = 1 then .reversed else .stable) := by
  have hacts : Acts (sampleUow 1 10) (auditedDb [revealEntry 30 5, revealEntry 31 5])
      ⟨11, 1, 10, .owner, none, 0⟩ := ⟨by decide, Or.inr ⟨rfl, rfl⟩⟩
  have hentries : entriesOf (auditedDb [revealEntry 30 5, revealEntry 31 5]) 10 =
      [revealEntry 30 5, revealEntry 31 5] := by decide
  have hstable : OrderBy.stable.sort [revealEntry 30 5, revealEntry 31 5] =
      [revealEntry 30 5, revealEntry 31 5] := List.mergeSort_of_pairwise (by decide)
  have hreversed : OrderBy.reversed.sort [revealEntry 30 5, revealEntry 31 5] =
      [revealEntry 31 5, revealEntry 30 5] := List.mergeSort_of_pairwise (by decide)
  rw [hacts.pagesPartition_iff (.of_checks mem_allTables (by decide) (by decide +kernel))]
  simp only [hentries, apply_ite OrderBy.sort, ite_apply, hstable, hreversed]
  rintro ⟨out, ⟨n, hend, hfull, rfl⟩, hout⟩
  have htwo : n = 2 := by
    rcases Nat.lt_trichotomy n 2 with hlt | heq | hgt
    · rcases Nat.le_one_iff_eq_zero_or_eq_one.mp (Nat.lt_succ_iff.mp hlt) with rfl | rfl
      · exact absurd hend (by decide)
      · exact absurd hend (by decide)
    · exact heq
    · exact absurd rfl (hfull 2 hgt)
  subst htwo
  exact absurd hout.perm (by decide)

/-- With different times they are on the two pages, each once. -/
theorem audit_pages_iff_distinct :
    (entriesOf (auditedDb [revealEntry 30 5, revealEntry 31 6]) 10).length = 2 ∧
    ∀ orders : ℕ → OrderBy, PagesPartition (sampleUow 1 10) sampleInput
      (auditedDb [revealEntry 30 5, revealEntry 31 6]) ⟨11, 1, 10, .owner, none, 0⟩ 1 orders := by
  refine ⟨by decide, (audit_pages_iff (sampleUow 1 10) sampleInput _ _
    (.of_checks mem_allTables (by decide) (by decide +kernel)) ⟨by decide, Or.inr ⟨rfl, rfl⟩⟩ 1
      (by decide)).mpr ?_⟩
  exact aligned_of_nodup (by decide) 1

end EnvVault
