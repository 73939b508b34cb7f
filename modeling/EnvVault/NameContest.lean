import EnvVault.SecretNames
import EnvVault.Undisturbed
import EnvVault.UniqueNames

/-!
# Contests for a unique name

Calls that contend for one free name read the same answers until the first of them
commits. A call that holds the name in its open transaction keeps the others out; a call
that comes too late meets the name in its existence check or in its INSERT.
-/
namespace EnvVault
open EnvVault.Relational EnvVault.RowSecurity EnvVault.Transactions

namespace UniqueName

/-- For the first version of a secret: the nonce is not in use. -/
def admits (k : UniqueName) (db : Db) (inp : Input) : Bool :=
  match k with
  | secretName _ _ => (db .secretVersions).all fun v => v.iv != inp.nonce.1
  | _ => true

/-- The call looked for the name in this database, and does not catch what its INSERT
raises. -/
def Passed (k : UniqueName) (base : Db) (seen : List Db) : Prop :=
  ∃ c later earlier, k.checkedAt = some c ∧ seen = later ++ base :: earlier ∧
    earlier.length + 1 = c

theorem checkedAt_pos {k : UniqueName} {c : ℕ} (h : k.checkedAt = some c) : 0 < c := by
  cases k with
  | environmentName project name => exact Option.some.inj h ▸ Nat.succ_pos 2
  | secretName environment keyName => exact Option.some.inj h ▸ Nat.succ_pos 3
  | _ => cases h

theorem alreadyExists_ne (k : UniqueName) : k.alreadyExists ≠ .integrityError := by
  cases k <;> exact nofun

theorem Passed.cons {k : UniqueName} {base : Db} {seen : List Db} (h : k.Passed base seen)
    (db : Db) : k.Passed base (db :: seen) := by
  obtain ⟨c, later, earlier, hc, rfl, hlen⟩ := h
  exact ⟨c, db :: later, earlier, hc, rfl, hlen⟩

theorem Passed.append {k : UniqueName} {base : Db} {seen : List Db} (h : k.Passed base seen)
    (later : List Db) : k.Passed base (later ++ seen) := by
  induction later with
  | nil => exact h
  | cons db later ih => exact ih.cons db

theorem passed_of_cons {k : UniqueName} {base db : Db} {seen : List Db} (hne : db ≠ base)
    (h : k.Passed base (db :: seen)) : k.Passed base seen := by
  obtain ⟨c, later, earlier, hc, heq, hlen⟩ := h
  cases later with
  | nil =>
    simp only [List.nil_append, List.cons.injEq] at heq
    exact absurd heq.1 hne
  | cons x later =>
    simp only [List.cons_append, List.cons.injEq] at heq
    exact ⟨c, later, earlier, hc, heq.2, hlen⟩

/-- A call that has met this database only, and often enough. -/
theorem passed_of_forall {k : UniqueName} {base : Db} {seen : List Db} {c : ℕ}
    (hc : k.checkedAt = some c) (hpos : 0 < c) (hlen : c ≤ seen.length)
    (hseen : ∀ db ∈ seen, db = base) : k.Passed base seen := by
  have hdrop : (seen.drop (seen.length - c)).length = c := by
    rw [List.length_drop]
    omega
  cases hlast : seen.drop (seen.length - c) with
  | nil =>
    rw [hlast] at hdrop
    exact absurd hdrop (by simp [hpos.ne])
  | cons db earlier =>
    rw [hlast, List.length_cons] at hdrop
    have hmem : db ∈ seen := List.mem_of_mem_drop (hlast ▸ List.mem_cons_self)
    obtain rfl := hseen db hmem
    exact ⟨c, seen.take (seen.length - c), earlier, hc,
      by rw [← hlast, List.take_append_drop], hdrop⟩

theorem Passed.le_length {k : UniqueName} {base : Db} {seen : List Db} (h : k.Passed base seen) :
    ∃ c, k.checkedAt = some c ∧ 0 < c ∧ c ≤ seen.length := by
  obtain ⟨c, later, earlier, hc, rfl, rfl⟩ := h
  exact ⟨_, hc, Nat.succ_pos _, by simp⟩

/-- Where the name was looked for last, it was not looked for in another database. -/
theorem not_passed_cons {k : UniqueName} {base db : Db} {seen : List Db} (hne : db ≠ base)
    (hc : ∀ c, k.checkedAt = some c → seen.length + 1 = c) : ¬ k.Passed base (db :: seen) := by
  intro h
  obtain ⟨c, hk, -, hlen⟩ := (passed_of_cons hne h).le_length
  have := hc c hk
  omega

end UniqueName

/-- Before the first commit the database is as it was; after it the name is there, and
nothing is committed any more. -/
structure ContestInv {n : ℕ} (k : UniqueName) (base : Db) (past : List Input) (W : VaultWorld n) :
    Prop where
  extended : k.Extends base W.db
  past : past <:+ W.past
  standing : (W.log = [] ∧ W.db = base) ∨ (∃ e, W.log = [e]) ∧ k.Occupied W.db

/-- Nobody has committed. -/
def Untaken {n : ℕ} (base : Db) (W : VaultWorld n) : Prop := W.log = [] ∧ W.db = base

def contest (n : ℕ) (k : UniqueName) (base : Db) (past : List Input) :
    Contract n vaultEngine where
  inv := ContestInv k base past
  guar _ W ws := Untaken base W ∧ k.Claims ws ∧ k.Occupied (vaultSchema.view ws W.db) ∧
    k.Extends base (vaultSchema.view ws W.db)
  assume _ W ws := vaultSchema.Valid (vaultSchema.view ws W.db)
  quiet _ _ _ _ := True
  inv_consume W inp hW _ := ⟨hW.extended, hW.past.trans (List.suffix_cons inp _), hW.standing⟩
  inv_commit c W ws hW _ hg :=
    ⟨hg.2.2.2, hW.past, Or.inr ⟨⟨(c, ws), by simp [hg.1.1]⟩, hg.2.2.1⟩⟩

/-- A loser raises the error of the method; one that passed its existence check in time
raises what its INSERT raises. -/
def Loses (n : ℕ) (k : UniqueName) (base : Db) (e : Exn) (seen : List Db) (W : VaultWorld n) :
    Prop :=
  W.log ≠ [] ∧ (e.cls = k.alreadyExists ∧ ¬ k.Passed base seen ∨
    e.cls = .integrityError ∧ k.Passed base seen)

section
variable {n : ℕ} {k : UniqueName} {base : Db} {past : List Input} {i : Fin n} {W : VaultWorld n}

/-- While the open transaction holds the name, nobody else commits. -/
theorem stable_untaken {ws : List RowWrite} (hws : k.Claims ws) :
    Stable (contest n k base past) i ws (Untaken base) := by
  refine .of_steps (fun V inp _ _ h => h) fun V c vs _ _ hg _ hc h => ?_
  exact absurd hc (hg.2.1.excludes hws)

/-- A commit that another caller has made stays. -/
theorem stable_loses {ws : List RowWrite} (e : Exn) (seen : List Db) :
    Stable (contest n k base past) i ws (Loses n k base e seen) := by
  exact .of_steps (fun V inp _ _ h => h) fun V c vs _ _ hg _ _ h => absurd hg.1.1 h.1

/-- The call returns a result, or it raises as a loser. -/
abbrev Competes {α : Type} (n : ℕ) (k : UniqueName) (base : Db) (past : List Input) (i : Fin n)
    (p : Tx α) (l : Local Db RowWrite) (W : VaultWorld n) : Prop :=
  Reaches (contest n k base past) (k.admits base) i p (fun _ _ _ => True)
    (fun e l V => Loses n k base e l.seen V) l W

theorem ContestInv.untaken_or (h : ContestInv k base past W) :
    Untaken base W ∨ W.log ≠ [] ∧ k.Occupied W.db := by
  rcases h.standing with hfree | ⟨⟨e, he⟩, hocc⟩
  · exact Or.inl hfree
  · exact Or.inr ⟨by simp [he], hocc⟩

/-- The name is not in the database that the calls begin in. -/
theorem ne_base (hfree : ¬ k.Taken base) (h : k.Occupied W.db) : W.db ≠ base :=
  fun heq => hfree (heq ▸ h.taken)

end

section
variable {k : UniqueName} {base : Db} {ok : Input → Bool} {uow : UnitOfWork} {t : Table}

theorem finds_selectOne {cond : RowOf t → Bool} {r : RowOf t}
    (hr : ∀ v, k.Extends base v → r ∈ v t ∧ uow.may v .select t r = true) (hcond : cond r = true)
    (honly : ∀ v, k.Extends base v → ∀ r' ∈ v t, cond r' = true → r' = r) :
    (uow.selectOne t cond).Finds ok (k.Extends base) (fun o => o = some r) 1 := by
  refine (Prog.finds_statement (P := fun rows => rows = [r]) fun inp v _ hv => ⟨_, rfl, ?_⟩).bind
    (k := 0) fun rows hrows => ?_
  · refine List.perm_singleton.mp ((List.perm_ext_iff_of_nodup
      ((List.Nodup.of_map _ (hv.valid.keys t)).filter _) (List.nodup_singleton r)).mpr fun r' => ?_)
    simp only [List.mem_filter, Bool.and_eq_true, List.mem_singleton]
    constructor
    · exact fun h => honly v hv r' h.1 h.2.2
    · rintro rfl
      exact ⟨(hr v hv).1, (hr v hv).2, hcond⟩
  · subst hrows
    exact Prog.finds_ret rfl

theorem finds_get {r : RowOf t}
    (hr : ∀ v, k.Extends base v → r ∈ v t ∧ uow.may v .select t r = true) :
    (uow.get t (rowId t r)).Finds ok (k.Extends base) (fun o => o = some r) 1 :=
  finds_selectOne hr (by simp) fun v hv r' hr' h =>
    hv.valid.eq_of_id hr' (hr v hv).1 (by simpa using h)

theorem finds_raiseIf {D : Db → Prop} {cond : Bool} {cls : ExnClass} {detail : String}
    (h : cond = false) : (raiseIf cond cls detail).Finds ok D (fun _ => True) 0 := by
  subst h
  exact Prog.finds_ret trivial

theorem finds_getByEmail {user : User} {email : String} (hu : user ∈ base .users)
    (hemail : sameEmail user.email email = true) :
    (UserRepository.getByEmail uow email).Finds ok (k.Extends base) (fun o => o = some user) 1 := by
  refine finds_selectOne (t := .users) (fun v hv => ⟨hv.users user hu, ?_⟩) hemail
    fun v hv u' hu' he => ?_
  · simp [UnitOfWork.may, mayAccess, policiesAdmit]
  · exact UniqueName.holds_unique (k := .email email) hv.valid (hv.users user hu) hu' hemail he

variable {m : Membership} (hacts : Acts uow base m)
include hacts

theorem finds_requireOrgRole {minimum : MembershipRole}
    (hrole : roleRank minimum ≤ roleRank m.role) :
    (requireOrgRole uow m.organizationId m.userId minimum).Finds ok (k.Extends base)
      (fun m' => m' = m) 1 := by
  have hmember : (getActorMembership uow m.organizationId m.userId).Finds ok (k.Extends base)
      (fun m' => m' = m) 1 := by
    refine (finds_selectOne (t := .memberships) (r := m)
      (fun v hv => ⟨hv.memberships m hacts.mem, (hv.acts hacts).may_membership⟩) (by simp)
      fun v hv m' hm' hc => ?_).bind (k := 0) fun o ho => ?_
    · simp only [Bool.and_eq_true, beq_iff_eq] at hc
      exact membership_unique hv.valid (hv.memberships m hacts.mem) hm' hc.1 hc.2
    · subst ho
      exact Prog.finds_ret rfl
  refine hmember.bind (k := 0) fun m' hm' => ?_
  subst hm'
  exact (finds_raiseIf (by simpa using hrole)).bind (k := 0) fun _ _ => Prog.finds_ret rfl

theorem finds_getProject {notFound : ExnClass} {p : Project} (hp : p ∈ base .projects)
    (ho : p.organizationId = m.organizationId) :
    (ProjectService.lookup uow notFound m.organizationId p.id).Finds ok (k.Extends base)
      (fun p' => p' = p) 1 := by
  refine (finds_get (t := .projects) (r := p) fun v hv =>
    ⟨hv.projects p hp, (hv.acts hacts).may_tenant (by decide) ho⟩).bind (k := 0) fun o hfound => ?_
  subst hfound
  simp only [ho, beq_self_eq_true, Option.filter_some, if_true]
  exact Prog.finds_ret rfl

open SecretService

theorem finds_resolveEnvironmentOrg {e : UUID} (he : EnvironmentIn base m.organizationId e) :
    (resolveEnvironmentOrg uow e m.organizationId).Finds ok (k.Extends base)
      (fun _ => True) 2 := by
  obtain ⟨e, he, rfl, p, hp, hid, ho⟩ := he
  have hget : (EnvironmentService.getIn uow m.organizationId e.id).Finds ok (k.Extends base)
      (fun _ => True) 2 := by
    refine (finds_get (t := .environments) (r := e) fun v hv => ⟨hv.environments e he,
      (hv.acts hacts).may_tenant (by decide) ⟨p, hv.projects p hp, hid, ho⟩⟩).bind (k := 1)
        fun o hfound => ?_
    subst hfound
    have hproject : (ProjectRepository.get uow e.projectId).Finds ok (k.Extends base)
        (fun o => o = some p) 1 := by
      have hfinds : (uow.get .projects (rowId .projects p)).Finds ok (k.Extends base)
          (fun o => o = some p) 1 := finds_get fun v hv =>
        ⟨hv.projects p hp, (hv.acts hacts).may_tenant (by decide) ho⟩
      rwa [show rowId .projects p = e.projectId from hid] at hfinds
    refine hproject.bind (k := 0) fun o' hfound => ?_
    subst hfound
    exact (finds_raiseIf (by simp [ho])).bind (k := 0) fun _ _ => Prog.finds_ret trivial
  exact hget.bind (k := 0) fun _ _ => Prog.finds_ret trivial

theorem finds_activeKey {kms : LocalKMSProvider} {e : UUID} {key : EncryptionKey}
    {name : String} (hk : k = .secretName e name) (hkey : OnlyKey kms base e key)
    (he : EnvironmentIn base m.organizationId e) :
    (activeKey uow e).Finds ok (k.Extends base) (fun found => found = key) 1 := by
  have hkeys : ∀ v, k.Extends base v → v .encryptionKeys = base .encryptionKeys :=
    fun v hv => hv.encryptionKeys ⟨e, name, hk⟩
  refine (finds_selectOne (t := .encryptionKeys) (r := key) (fun v hv => ⟨?_, ?_⟩)
    (by simp [hkey.environment, hkey.active]) fun v hv key' hkey' hc => ?_).bind (k := 0)
      fun o hfound => ?_
  · exact hkeys v hv ▸ hkey.mem
  · refine (hv.acts hacts).may_tenant (by decide) ?_
    rw [InOrganization, hkey.environment]
    exact hv.environmentIn he
  · simp only [Bool.and_eq_true, beq_iff_eq] at hc
    exact hkey.only key' (hkeys v hv ▸ hkey') hc.1
  · subst hfound
    exact Prog.finds_ret rfl

omit hacts in
theorem finds_encryptSecret {D : Db → Prop} {kms : LocalKMSProvider} {plainValue : String}
    {key : EncryptionKey} (hw : CryptoService.Wrapped kms key.wrappedDek) :
    (encryptSecret kms plainValue key).Finds ok D
      (fun encrypted => ∃ inp : Input, ok inp = true ∧ encrypted.2 = inp.nonce.1) 1 := by
  refine (Prog.finds_statement (P := fun random => ok random = true)
    fun inp v hok _ => ⟨inp, rfl, hok⟩).bind (k := 0) fun random hok => ?_
  obtain ⟨encryptedValue, henc⟩ := hw.encryptSecret plainValue random.nonce
  rw [henc]
  exact Prog.finds_ret ⟨random, hok, rfl⟩

end

section
variable {n : ℕ} {k : UniqueName} {base : Db} {past : List Input} {i : Fin n} {W : VaultWorld n}
  {uow : UnitOfWork} {β : Type} {X : Exn → Local Db RowWrite → VaultWorld n → Prop}

/-- The queries of a call before it writes. -/
theorem competes_finds_bind {α : Type} {p : Tx α} {f : α → Tx β} {P : α → Prop} {j : ℕ}
    {seen : List Db} (hp : p.Finds (k.admits base) (k.Extends base) P j)
    (h : ∀ a later V, P a → later.length = j →
      Competes n k base past i (f a) ⟨[], later ++ seen⟩ V) :
    Competes n k base past i (p.bind f) ⟨[], seen⟩ W := by
  refine reaches_finds_bind hp (Stable.const True) trivial (fun V _ hV => hV.extended)
    fun a seen' V ha hs hlen _ => ?_
  obtain ⟨later, rfl⟩ := hs
  rw [List.length_append] at hlen
  exact h a later V ha (by omega)

/-- The existence check: who finds the name has lost, and who finds nothing in a method
that does not catch the error of its INSERT has looked in time. -/
theorem competes_unless_existing (exn : Exn) {cond : RowOf k.table → Bool} {p : Tx β}
    {seen : List Db} (hfree : ¬ k.Taken base) (hcond : ∀ r, cond r = k.wanted r)
    (hexn : exn.cls = k.alreadyExists)
    (hvisible : ∀ c, k.checkedAt = some c → seen.length + 1 = c ∧ ∀ V : VaultWorld n,
      ContestInv k base past V → ∀ r ∈ V.db k.table, k.wanted r = true →
        uow.may V.db .select k.table r = true)
    (hp : ∀ db V, (∀ c, k.checkedAt = some c → k.Passed base (db :: seen)) →
      Competes n k base past i p ⟨[], db :: seen⟩ V) :
    Competes n k base past i ((uow.selectOne k.table cond).bind fun existing =>
      (raiseIf existing.isSome exn.cls exn.detail).bind fun _ => p) ⟨[], seen⟩ W := by
  rw [UnitOfWork.selectOne_bind]
  refine reaches_answer_bind (Stable.const True) trivial fun V inp _ hV _ _ =>
    ⟨[], uow.found k.table cond V.db, rfl, ?_⟩
  -- the constraint leaves one row to find
  have hwanted : ∀ r ∈ uow.found k.table cond V.db, r ∈ V.db k.table ∧ k.wanted r = true := by
    intro r hr
    simp only [UnitOfWork.found, List.mem_filter, Bool.and_eq_true, hcond] at hr
    exact ⟨hr.1, hr.2.2⟩
  have hnodup : (uow.found k.table cond V.db).Nodup :=
    (List.Nodup.of_map _ (hV.extended.valid.keys k.table)).filter _
  rcases hfound : uow.found k.table cond V.db with _ | ⟨r, _ | ⟨r', rows⟩⟩
  · refine hp V.db _ fun c hc => ?_
    obtain ⟨hlen, hsees⟩ := hvisible c hc
    rcases hV.untaken_or with ⟨-, hdb⟩ | ⟨-, r, hr, hw⟩
    · exact ⟨c, [], seen, hc, by rw [hdb]; rfl, hlen⟩
    · have hmem : r ∈ uow.found k.table cond V.db := by
        simp only [UnitOfWork.found, List.mem_filter, Bool.and_eq_true, hcond]
        exact ⟨hr, hsees V hV r hr hw, hw⟩
      rw [hfound] at hmem
      cases hmem
  · have hr := hwanted r (hfound ▸ List.mem_singleton.mpr rfl)
    have hocc : k.Occupied V.db := ⟨r, hr⟩
    have hlog : V.log ≠ [] := by
      rcases hV.untaken_or with ⟨-, hdb⟩ | ⟨hlog, -⟩
      · exact absurd hdb (ne_base hfree hocc)
      · exact hlog
    refine reaches_raise fun U hU => ?_
    exact stable_loses exn (V.db :: seen) _ U hU ⟨hlog, Or.inl ⟨hexn,
      UniqueName.not_passed_cons (ne_base hfree hocc) fun c hc => (hvisible c hc).1⟩⟩
  · rw [hfound] at hwanted hnodup
    have hr := hwanted r List.mem_cons_self
    have hr' := hwanted r' (List.mem_cons_of_mem _ List.mem_cons_self)
    have heq := UniqueName.holds_unique hV.extended.valid hr.1 hr'.1
      (UniqueName.holds_of_wanted hr.2) (UniqueName.holds_of_wanted hr'.2)
    simp [heq] at hnodup

/-- The statement that takes the name: it works while nobody has committed, and fails
afterwards. -/
theorem reaches_claim_bind {α : Type} {f : Input → Db → Except Exn (List RowWrite × α)}
    {p : α → Tx β} {seen : List Db}
    (hX : ∀ e seen, Stable (contest n k base past) i [] (X e ⟨[], seen⟩))
    (halone : ∀ inp, (∀ q ∈ past, ∀ x ∈ inp.ids, x ∉ q.ids) → k.admits base inp = true →
      ∃ ws a, f inp base = .ok (ws, a) ∧ ∀ V, Untaken base V →
        Reaches (contest n k base past) (k.admits base) i (p a) (fun _ _ _ => True) X
          ⟨ws, base :: seen⟩ V)
    (htaken : ∀ inp (V : VaultWorld n), ContestInv k base past V → V.log ≠ [] →
      k.Occupied V.db → ∃ e, f inp V.db = .error e ∧ X e ⟨[], V.db :: seen⟩ (V.consume inp)) :
    Reaches (contest n k base past) (k.admits base) i ((Prog.statement f).bind p)
      (fun _ _ _ => True) X ⟨[], seen⟩ W := by
  refine reaches_statement_bind (Stable.const True) trivial hX fun V inp _ hV hfresh hok => ?_
  rcases hV.untaken_or with ⟨hlog, hdb⟩ | ⟨hlog, hocc⟩
  · refine Or.inl ?_
    have hnew : ∀ q ∈ past, ∀ x ∈ inp.ids, x ∉ q.ids :=
      fun q hq x hx => freshInput_ids hfresh x hx q (hV.past.subset hq)
    obtain ⟨ws, a, hf, hp⟩ := halone inp hnew hok
    refine ⟨ws, a, ?_, ?_⟩
    · rw [Engine.view_nil, hdb]
      exact hf
    · rw [hdb]
      exact hp _ ⟨hlog, hdb⟩
  · obtain ⟨e, hf, hx⟩ := htaken inp V hV hlog hocc
    exact Or.inr ⟨e, by rwa [Engine.view_nil], hx⟩

/-- A statement of a call that holds the name. -/
theorem reaches_alone_bind {α : Type} {f : Input → Db → Except Exn (List RowWrite × α)}
    {p : α → Tx β} {ws : List RowWrite} {seen : List Db} (hws : k.Claims ws) (hW : Untaken base W)
    (h : ∀ inp, (∀ q ∈ past, ∀ x ∈ inp.ids, x ∉ q.ids) → ∃ vs a,
      f inp (vaultSchema.view ws base) = .ok (vs, a) ∧ ∀ V, Untaken base V →
        Reaches (contest n k base past) (k.admits base) i (p a) (fun _ _ _ => True) X
          ⟨ws ++ vs, base :: seen⟩ V) :
    Reaches (contest n k base past) (k.admits base) i ((Prog.statement f).bind p)
      (fun _ _ _ => True) X ⟨ws, seen⟩ W := by
  refine reaches_answer_bind (stable_untaken hws) hW fun V inp hU hV hfresh hok => ?_
  have hnew : ∀ q ∈ past, ∀ x ∈ inp.ids, x ∉ q.ids :=
    fun q hq x hx => freshInput_ids hfresh x hx q (hV.past.subset hq)
  obtain ⟨vs, a, hf, hp⟩ := h inp hnew
  refine ⟨vs, a, ?_, ?_⟩
  · rw [vaultEngine_view, hU.2]
    exact hf
  · rw [hU.2]
    exact hp _ hU

/-- The INSERT of a row of the organization, by a call that holds the name. -/
theorem Acts.reaches_insertFlushed_bind {m : Membership} {ws : List RowWrite} {v : Db}
    (hv : vaultSchema.view ws base = v) (hacts : Acts uow v m) {t : Table}
    (ht : t ∈ tenantTables) {row : Input → RowOf t} {p : RowOf t → Tx β} {seen : List Db}
    (hws : k.Claims ws) (hW : Untaken base W)
    (h : ∀ inp, (∀ q ∈ past, ∀ x ∈ inp.ids, x ∉ q.ids) →
      InOrganization v m.organizationId t (row inp) ∧
        vaultSchema.admitsInsert t (row inp) v = true ∧ ∀ V, Untaken base V →
          Reaches (contest n k base past) (k.admits base) i (p (row inp)) (fun _ _ _ => True) X
            ⟨ws ++ [.insert t (row inp)], base :: seen⟩ V) :
    Reaches (contest n k base past) (k.admits base) i ((uow.insertFlushed t row).bind p)
      (fun _ _ _ => True) X ⟨ws, seen⟩ W := by
  refine reaches_alone_bind hws hW fun inp hnew => ?_
  obtain ⟨hin, hadm, hp⟩ := h inp hnew
  refine ⟨[.insert t (row inp)], row inp, ?_, hp⟩
  rw [hv]
  simp [UnitOfWork.insertRow, hacts.may_returning ht hin, hadm]

theorem reaches_setRlsContext_ret {b : β} {ws : List RowWrite} {seen : List Db} :
    Reaches (contest n k base past) (k.admits base) i
      (UnitOfWork.setRlsContext.bind fun _ => .ret b) (fun _ _ _ => True) X ⟨ws, seen⟩ W := by
  have hassoc : (UnitOfWork.setRlsContext.bind fun _ => .ret b : Tx β) =
      (Prog.statement fun _ _ => .ok ([], ())).bind fun _ =>
        (Prog.statement fun _ _ => .ok ([], ())).bind fun _ => .ret b := rfl
  rw [hassoc]
  refine reaches_answer_bind (Stable.const True) trivial fun _ _ _ _ _ _ => ⟨[], (), rfl, ?_⟩
  refine reaches_answer_bind (Stable.const True) trivial fun _ _ _ _ _ _ => ⟨[], (), rfl, ?_⟩
  exact reaches_ret fun _ _ => trivial

/-- The COMMIT of a call that holds the name. -/
theorem reaches_commit_ret {b : β} {ws : List RowWrite} {seen : List Db} (hws : k.Claims ws)
    (hW : Untaken base W) (hocc : k.Occupied (vaultSchema.view ws base))
    (hext : vaultSchema.Valid (vaultSchema.view ws base) →
      k.Extends base (vaultSchema.view ws base)) :
    Reaches (contest n k base past) (k.admits base) i
      (UnitOfWork.commit.bind fun _ => .ret b) (fun _ _ _ => True) X ⟨ws, seen⟩ W := by
  rw [UnitOfWork.commit_bind]
  refine reaches_commit_bind (stable_untaken hws) hW fun V hU hV ha => ⟨?_, ?_⟩
  · have hvalid : vaultSchema.Valid (vaultSchema.view ws V.db) := ha
    rw [hU.2] at hvalid
    refine ⟨hU, hws, ?_, ?_⟩
    · rw [hU.2]
      exact hocc
    · rw [hU.2]
      exact hext hvalid
  · exact reaches_setRlsContext_ret

/-- The commit that makes a version of a secret its current one, by a call that holds the
name. -/
theorem Acts.reaches_commitPointer_ret {m : Membership} {ws : List RowWrite} {v : Db}
    (hv : vaultSchema.view ws base = v) (hacts : Acts uow v m) (hvalid : vaultSchema.Valid v)
    {s : Secret} (hs : s ∈ v .secrets) (he : EnvironmentIn v m.organizationId s.environmentId)
    {version : SecretVersion} (hversion : version ∈ v .secretVersions)
    (hsecret : version.secretId = s.id) {b : β} {seen : List Db} (hws : k.Claims ws)
    (hW : Untaken base W)
    (hocc : k.Occupied (vaultSchema.apply (.update .secrets (s.pointingTo version.id)) v))
    (hext : vaultSchema.Valid (vaultSchema.view (ws ++ [.update .secrets (s.pointingTo version.id)])
      base) → k.Extends base (vaultSchema.view (ws ++ [.update .secrets (s.pointingTo version.id)])
        base)) :
    Reaches (contest n k base past) (k.admits base) i
      ((SecretService.commitPointer uow s.id version.id).bind fun _ => .ret b) (fun _ _ _ => True) X
        ⟨ws, seen⟩ W := by
  simp only [SecretService.commitPointer, UnitOfWork.updateFlushed, Prog.bind_eq, Prog.bind_assoc]
  refine reaches_alone_bind hws hW fun inp _ =>
    ⟨[.update .secrets (s.pointingTo version.id)], 1, ?_, fun V hU => ?_⟩
  · rw [hv]
    exact hacts.updateRow_pointer hvalid hs he version.id
  have hview : vaultSchema.view (ws ++ [.update .secrets (s.pointingTo version.id)]) base =
      vaultSchema.apply (.update .secrets (s.pointingTo version.id)) v := by
    rw [vaultSchema.view_append, hv]
    rfl
  obtain ⟨hexists, howned⟩ := hacts.pointer_checked hs he hversion hsecret
  refine reaches_alone_bind (hws.append _) hU fun inp _ => ⟨[], (), ?_, fun V hU => ?_⟩
  · rw [hview]
    simp only [hexists, howned, Bool.not_true, Bool.false_eq_true, if_false]
  · rw [List.append_nil]
    exact reaches_commit_ret (hws.append _) hU (hview ▸ hocc) hext

end

/-- The keys of the database were supplied by inputs of the past. -/
def Supplied (base : Db) (past : List Input) : Prop :=
  ∀ t, ∀ r ∈ base t, ∃ q ∈ past, rowId t r ∈ q.ids

theorem Supplied.unused {base : Db} {past : List Input} (h : Supplied base past) {inp : Input}
    (hnew : ∀ q ∈ past, ∀ x ∈ inp.ids, x ∉ q.ids) {x : UUID} (hx : x ∈ inp.ids) (t : Table) :
    ∀ r ∈ base t, rowId t r ≠ x := by
  rintro r hr rfl
  obtain ⟨q, hq, hid⟩ := h t r hr
  exact hnew q hq _ hx hid

/-- The first key of an environment passes the constraints. -/
theorem admitsInsert_firstKey {db : Db} {key : EncryptionKey}
    (hid : ∀ r ∈ db .encryptionKeys, r.id ≠ key.id)
    (hno : ∀ r ∈ db .encryptionKeys, r.environmentId ≠ key.environmentId)
    (henv : ∃ e ∈ db .environments, e.id = key.environmentId) :
    vaultSchema.admitsInsert .encryptionKeys key db = true := by
  refine Schema.admitsInsert_iff.mpr ⟨hid, Schema.uniqueAmong_iff.mpr fun x hx _ u hu => ?_, ?_⟩
  · have hcases : u = (fun a b : EncryptionKey => a.environmentId == b.environmentId &&
        a.keyVersion == b.keyVersion) ∨ u = fun a b : EncryptionKey => a.isActive && b.isActive &&
          a.environmentId == b.environmentId := by
      simpa [vaultSchema, uniqueOf] using hu
    rcases hcases with rfl | rfl
    · simp [hno x hx, Ne.symm (hno x hx)]
    · simp [hno x hx, Ne.symm (hno x hx)]
  · simpa [vaultSchema_referencesHold, referencesOf, rowId] using henv

/-- A member sees its organization, also outside the context of it. -/
theorem may_ownOrganization {uow : UnitOfWork} {v : Db} {m : Membership} {o : Organization}
    (hm : m ∈ v .memberships) (hu : uow.userId = some m.userId) (ho : o.id = m.organizationId) :
    uow.may v .select .organizations o = true := by
  have hadm : policiesAdmit uow.schemaOwner uow.context v .select .organizations o = true := by
    simp only [policiesAdmit, organizationPolicies, admits_perCommand, passes_exists',
      Truth.passes_and, Truth.passes_eq_some, Bool.and_eq_true, decide_eq_true_eq,
      mem_visibleMemberships]
    exact ⟨m, ⟨hm, Or.inl hu⟩, congrArg some ho, hu⟩
  simp [UnitOfWork.may, mayAccess, hadm]

section
variable {n : ℕ} {k : UniqueName} {base : Db} {past : List Input} {i : Fin n} {W : VaultWorld n}
  {uow : UnitOfWork} {β : Type}

theorem competes_map {α : Type} {p : Tx α} {g : α → β} {l : Local Db RowWrite}
    (h : Competes n k base past i p l W) :
    Competes n k base past i (p.bind fun a => .ret (g a)) l W :=
  reaches_bind (h.mono fun _ _ _ _ => reaches_ret fun _ _ => trivial)

theorem UniqueName.table_ne (k : UniqueName) : k.table ≠ .encryptionKeys := by
  cases k <;> simp [table]

/-- What the commit of a new row with the name leaves. -/
theorem UniqueName.extends_insert {r : RowOf k.table}
    (hv : vaultSchema.Valid (vaultSchema.view [.insert k.table r] base)) :
    k.Extends base (vaultSchema.view [.insert k.table r] base) := by
  refine .view hv (fun w hw => Or.inl ⟨k.table, r, List.mem_singleton.mp hw⟩) fun _ w hw => ?_
  rw [List.mem_singleton.mp hw]
  exact k.table_ne

theorem UniqueName.occupied_insert {r : RowOf k.table} (hr : k.wanted r = true) :
    k.Occupied (vaultSchema.view [.insert k.table r] base) :=
  ⟨r, Schema.mem_view_of_insert List.mem_cons_self (by simp) (by simp), hr⟩

variable (hfree : ¬ k.Taken base) (hids : Supplied base past)
include hfree hids

/-- `INSERT` of a row with the name and COMMIT, where a constraint violation becomes the
error of the method. -/
theorem competes_insertOrConflict {row : Input → RowOf k.table} {exn : Exn} {seen : List Db}
    (hguarded : k.checkedAt = none) (hexn : exn.cls = k.alreadyExists)
    (hrow : ∀ inp, k.wanted (row inp) = true ∧ rowId k.table (row inp) = inp.uuid)
    (hmay : ∀ inp v, k.Extends base v → (uow.may v .insert k.table (row inp) &&
      uow.may v .select k.table (row inp)) = true)
    (hrefs : ∀ inp, vaultSchema.referencesHold k.table (row inp) base = true)
    (hbase : vaultSchema.Valid base) :
    Competes n k base past i (exceptIntegrityError
      ((uow.insertFlushed k.table row).bind fun r => UnitOfWork.commit.bind fun _ => .ret r)
      (UnitOfWork.rollback.bind fun _ => .raise exn)) ⟨[], seen⟩ W := by
  have hnot : ∀ seen, ¬ k.Passed base seen := by
    rintro seen ⟨c, later, earlier, hc, -⟩
    rw [hguarded] at hc
    cases hc
  refine reaches_handle (reaches_claim_bind
    (fun e seen V U hU h => Reaches.interference h hU) (fun inp hnew hok => ?_)
    fun inp V hV hlog hocc => ?_)
  · have hadm : vaultSchema.admitsInsert k.table (row inp) base = true :=
      UniqueName.admitsInsert_free hfree (UniqueName.holds_of_wanted (hrow inp).1)
        ((hrow inp).2 ▸ hids.unused hnew List.mem_cons_self k.table) (hrefs inp)
    refine ⟨[.insert k.table (row inp)], row inp, ?_, fun V hU => ?_⟩
    · simp [UnitOfWork.insertRow, hmay inp base (.refl hbase), hadm]
    · exact reaches_commit_ret
        ⟨row inp, List.mem_cons_self, UniqueName.holds_of_wanted (hrow inp).1⟩ hU
        (UniqueName.occupied_insert (hrow inp).1) UniqueName.extends_insert
  · have hadm : vaultSchema.admitsInsert k.table (row inp) V.db = false :=
      UniqueName.not_admitsInsert_taken hocc.taken (UniqueName.holds_of_wanted (hrow inp).1)
    refine ⟨integrityViolation k.table, ?_, ?_⟩
    · simp [UnitOfWork.insertRow, hmay inp V.db hV.extended, hadm]
    · refine reaches_rollback_bind fun U hU => reaches_raise fun U' hU' => ?_
      exact stable_loses exn _ _ U' hU' (stable_loses exn _ _ U hU
        ⟨hlog, Or.inl ⟨hexn, hnot _⟩⟩)

variable (hbase : vaultSchema.Valid base)
include hbase

theorem competes_register {security : SecurityModules} {e email password : String}
    {fullName : Option String} (hk : k = .email e) (he : sameEmail email e = true) :
    Competes n k base past i (AuthService.register security uow email password fullName) ⟨[], []⟩
      W := by
  subst hk
  have hopen : ∀ (v : Db) (r : User),
      (uow.may v .insert .users r && uow.may v .select .users r) = true := by
    intro v r
    simp [UnitOfWork.may, mayAccess, policiesAdmit]
  refine competes_unless_existing (k := .email e) (AuthService.emailRegistered email) hfree
    (fun r => ?_) rfl (fun c hc => by cases hc) fun db V _ => ?_
  · have hsame : sameEmail r.email email = sameEmail r.email e := by
      have heq : email.toLower = e.toLower := by simpa [sameEmail] using he
      simp [sameEmail, heq]
    simp [UniqueName.wanted, UniqueName.holds, UniqueName.live, hsame]
  · refine competes_insertOrConflict (k := .email e) hfree hids rfl rfl (fun inp => ⟨?_, rfl⟩)
      (fun inp v _ => hopen v _) (fun inp => ?_) hbase
    · simpa [UniqueName.wanted, UniqueName.holds, UniqueName.live] using he
    · simp [vaultSchema_referencesHold, referencesOf]

theorem competes_createProject {o actor : UUID} {name slug : String} {description : Option String}
    (hk : k = .projectSlug o slug) (hacts : ActsAs uow base o actor .member) :
    Competes n k base past i (ProjectService.create uow o name slug actor description) ⟨[], []⟩
      W := by
  obtain ⟨m, hacts, rfl, rfl, hrole⟩ := hacts
  subst hk
  refine competes_finds_bind (finds_requireOrgRole hacts hrole) fun _ later V _ _ => ?_
  refine competes_unless_existing (k := .projectSlug m.organizationId slug)
    (ProjectService.slugExists slug) hfree (fun r => ?_) rfl (fun c hc => by cases hc)
    fun db V _ => ?_
  · simp [UniqueName.wanted, UniqueName.holds, UniqueName.live]
  · refine competes_insertOrConflict (k := .projectSlug m.organizationId slug) hfree hids rfl rfl
      (fun inp => ⟨?_, rfl⟩) (fun inp v hv => ?_) (fun inp => ?_) hbase
    · simp [UniqueName.wanted, UniqueName.holds, UniqueName.live]
    · exact (hv.acts hacts).may_returning (t := .projects) (by decide) rfl
    · have huser := parent_exists hbase hacts.mem (by simp [referencesOf] :
        (.users, some m.userId) ∈ referencesOf .memberships m)
      have horg := parent_exists hbase hacts.mem (by simp [referencesOf] :
        (.organizations, some m.organizationId) ∈ referencesOf .memberships m)
      simpa [vaultSchema_referencesHold, referencesOf] using ⟨huser, horg⟩

theorem competes_invite {userId o actor : UUID} {email : String} {role : MembershipRole}
    (hk : k = .member userId o) (hrole : role ≠ .owner)
    (hu : ∃ u ∈ base .users, u.id = userId ∧ sameEmail u.email email = true)
    (hacts : ActsAs uow base o actor (if role = .admin then .owner else .admin)) :
    Competes n k base past i (MembershipService.invite uow o email role actor) ⟨[], []⟩ W := by
  obtain ⟨user, hu, rfl, hemail⟩ := hu
  obtain ⟨m, hacts, rfl, rfl, hrank⟩ := hacts
  subst hk
  have hadmin : roleRank .admin ≤ roleRank m.role := by
    refine le_trans ?_ hrank
    split <;> decide
  have howner : (role == MembershipRole.admin && m.role != MembershipRole.owner) = false := by
    by_cases hr : role = .admin
    · rw [if_pos hr] at hrank
      cases hm : m.role <;> simp [hm, roleRank] at hrank ⊢
    · simp [hr]
  refine competes_finds_bind (finds_raiseIf (by simpa using hrole)) fun _ later V _ _ => ?_
  refine competes_finds_bind (finds_requireOrgRole hacts hadmin) fun actor later V hactor _ => ?_
  subst hactor
  refine competes_finds_bind (finds_raiseIf howner) fun _ later V _ _ => ?_
  refine competes_finds_bind (finds_getByEmail hu hemail) fun found later V hfound _ => ?_
  subst hfound
  refine competes_unless_existing (k := .member user.id actor.organizationId)
    MembershipService.alreadyMember hfree (fun r => ?_) rfl (fun c hc => by cases hc)
    fun db V _ => ?_
  · simp [UniqueName.wanted, UniqueName.holds, UniqueName.live]
  · refine competes_insertOrConflict (k := .member user.id actor.organizationId) hfree hids rfl rfl
      (fun inp => ⟨?_, rfl⟩) (fun inp v hv => ?_) (fun inp => ?_) hbase
    · simp [UniqueName.wanted, UniqueName.holds, UniqueName.live]
    · exact (hv.acts hacts).may_invite hadmin rfl hrole
    · have huser := parent_exists hbase hacts.mem (by simp [referencesOf] :
        (.users, some actor.userId) ∈ referencesOf .memberships actor)
      have horg := parent_exists hbase hacts.mem (by simp [referencesOf] :
        (.organizations, some actor.organizationId) ∈ referencesOf .memberships actor)
      simpa [vaultSchema_referencesHold, referencesOf] using
        ⟨huser, horg, user, hu, rfl⟩

theorem competes_createOrganization {name slug : String} {userId : UUID}
    (hk : k = .organizationSlug slug) (hctx : uow.userId = some userId)
    (howner : uow.schemaOwner = .superuser) (hu : ∃ u ∈ base .users, u.id = userId) :
    Competes n k base past i (OrganizationService.create uow name slug userId) ⟨[], []⟩ W := by
  subst hk
  have hnot : ∀ seen, ¬ (UniqueName.organizationSlug slug).Passed base seen := by
    rintro seen ⟨c, later, earlier, hc, -⟩
    cases hc
  refine competes_unless_existing (k := .organizationSlug slug)
    (OrganizationService.slugTaken slug) hfree (fun r => ?_) rfl (fun c hc => by cases hc)
    fun db V _ => ?_
  · simp [UniqueName.wanted, UniqueName.holds, UniqueName.live]
  refine reaches_handle ?_
  change Reaches _ _ _
    ((OrganizationRepository.createWithOwner uow name slug userId).bind fun org =>
    UnitOfWork.commit.bind fun _ => .ret org) _ _ _ _
  simp only [OrganizationRepository.createWithOwner, OrganizationRepository.get, UnitOfWork.get,
    UnitOfWork.selectOne, Prog.bind_eq, Prog.bind_assoc]
  have hslug : ∀ o ∈ base .organizations, o.slug ≠ slug :=
    fun o ho heq => hfree ⟨o, ho, by simpa [UniqueName.holds] using heq⟩
  refine reaches_claim_bind (k := .organizationSlug slug)
    (fun e seen V U hU h => Reaches.interference h hU) (fun inp hnew hok => ?_)
    fun inp V hV hlog hocc => ?_
  · have hkeys : UnusedKeys inp base :=
      ⟨hids.unused hnew (by simp [Input.ids]) .organizations,
        hids.unused hnew (by simp [Input.ids]) .memberships⟩
    refine ⟨_, _, createOrganizationWithOwner_superuser hbase hctx howner hu hslug hkeys,
      fun V hU => ?_⟩
    have hclaims : (UniqueName.organizationSlug slug).Claims
        [.insert .organizations (⟨inp.uuid, name, slug⟩ : Organization),
          .insert .memberships ⟨inp.secondUuid, userId, inp.uuid, .owner, none, inp.now⟩] :=
      ⟨⟨inp.uuid, name, slug⟩, List.mem_cons_self, by simp [UniqueName.holds]⟩
    refine reaches_alone_bind hclaims hU fun inp' _ => ⟨[], _, rfl, fun V' hU' => ?_⟩
    -- the new organization is visible to its owner
    have hfound : uow.found .organizations
        (fun o => rowId .organizations o == inp.uuid) (vaultSchema.view
          [.insert .organizations (⟨inp.uuid, name, slug⟩ : Organization),
            .insert .memberships ⟨inp.secondUuid, userId, inp.uuid, .owner, none, inp.now⟩] base) =
        [⟨inp.uuid, name, slug⟩] := by
      have hview : vaultSchema.view
          [.insert .organizations (⟨inp.uuid, name, slug⟩ : Organization),
            .insert .memberships ⟨inp.secondUuid, userId, inp.uuid, .owner, none, inp.now⟩] base
          .organizations = base .organizations ++ [⟨inp.uuid, name, slug⟩] := rfl
      have hsees := may_ownOrganization (v := vaultSchema.view
          [.insert .organizations (⟨inp.uuid, name, slug⟩ : Organization),
            .insert .memberships ⟨inp.secondUuid, userId, inp.uuid, .owner, none, inp.now⟩] base)
        (m := ⟨inp.secondUuid, userId, inp.uuid, .owner, none, inp.now⟩)
        (o := ⟨inp.uuid, name, slug⟩) (List.mem_append_right _ (List.mem_singleton.mpr rfl)) hctx
        rfl
      have hold : ∀ o ∈ base .organizations, (rowId .organizations o == inp.uuid) = false :=
        fun o ho => beq_eq_false_iff_ne.mpr (hkeys.organization o ho)
      rw [UnitOfWork.found, hview, List.filter_append, List.filter_eq_nil_iff.mpr, List.nil_append]
      · refine (List.filter_cons_of_pos ?_).trans rfl
        rw [hsees, Bool.true_and, beq_iff_eq]
        rfl
      · intro o ho
        rw [hold o ho, Bool.and_false]
        exact Bool.false_ne_true
    rw [hfound]
    refine reaches_commit_ret hclaims hU' ⟨⟨inp.uuid, name, slug⟩, ?_, ?_⟩ fun hvalid =>
      .view hvalid (fun w hw => Or.inl ?_) ?_
    · exact List.mem_append_right _ (List.mem_singleton.mpr rfl)
    · simp [UniqueName.wanted, UniqueName.holds, UniqueName.live]
    · simp only [List.append_nil, List.mem_cons, List.not_mem_nil, or_false] at hw
      rcases hw with rfl | rfl
      exacts [⟨_, _, rfl⟩, ⟨_, _, rfl⟩]
    · rintro ⟨_, _, hk⟩
      cases hk
  · have huser : (V.db .users).any (fun x : User => x.id == userId) = true := by
      obtain ⟨x, hx, rfl⟩ := hu
      exact List.any_eq_true.mpr ⟨x, hV.extended.users x hx, by simp⟩
    have hadm : vaultSchema.admitsInsert .organizations (⟨inp.uuid, name, slug⟩ : Organization)
        V.db = false :=
      UniqueName.not_admitsInsert_taken (k := .organizationSlug slug) hocc.taken
        (by simp [UniqueName.holds])
    refine ⟨integrityViolation .organizations, ?_, ?_⟩
    · simp [createOrganizationWithOwner, hctx, huser, UnitOfWork.may, mayAccess, howner,
        DbRole.bypassesRls, hadm]
    · refine reaches_rollback_bind fun U hU => reaches_raise fun U' hU' => ?_
      exact stable_loses _ _ _ U' hU' (stable_loses _ _ _ U hU ⟨hlog, Or.inl ⟨rfl, hnot _⟩⟩)

omit hfree hids hbase in
/-- The INSERT of the name is refused to a call that passed its existence check in time. -/
theorem insertRow_taken {r : RowOf k.table} {seen : List Db} {inp : Input} {V : VaultWorld n}
    (hr : k.holds r = true) (hmay : (uow.may V.db .insert k.table r &&
      uow.may V.db .select k.table r) = true) (hpassed : k.Passed base seen)
    (hlog : V.log ≠ []) (hocc : k.Occupied V.db) :
    ∃ e, uow.insertRow k.table r V.db = .error e ∧
      Loses n k base e (V.db :: seen) (V.consume inp) := by
  have hadm := UniqueName.not_admitsInsert_taken hocc.taken hr
  exact ⟨integrityViolation k.table, by simp [UnitOfWork.insertRow, hmay, hadm], hlog,
    Or.inr ⟨rfl, hpassed.cons _⟩⟩

theorem competes_createEnvironment {kms : LocalKMSProvider} {project o actor : UUID}
    {name : String} (hk : k = .environmentName project name) (hproject : ProjectIn base o project)
    (hacts : ActsAs uow base o actor .member) :
    Competes n k base past i (EnvironmentService.create kms uow project o name actor) ⟨[], []⟩
      W := by
  obtain ⟨m, hacts, rfl, rfl, hrole⟩ := hacts
  obtain ⟨p, hp, rfl, ho⟩ := hproject
  subst hk
  refine competes_finds_bind (finds_requireOrgRole hacts hrole) fun _ first V _ hfirst => ?_
  refine competes_finds_bind (finds_getProject hacts hp ho) fun _ second V _ hsecond => ?_
  have hin : ∀ v, (UniqueName.environmentName p.id name).Extends base v →
      ProjectIn v m.organizationId p.id := fun v hv => ⟨p, hv.projects p hp, rfl, ho⟩
  refine competes_unless_existing (k := .environmentName p.id name)
    (EnvironmentService.nameExists name) hfree (fun r => ?_) rfl (fun c hc => ⟨?_, ?_⟩)
    fun db V hpassed => ?_
  · simp [UniqueName.wanted, UniqueName.holds, UniqueName.live]
  · obtain rfl : 3 = c := Option.some.inj hc
    simp [hfirst, hsecond]
  · intro V hV r hr hw
    have hholds := UniqueName.holds_of_wanted hw
    simp only [UniqueName.holds, Bool.and_eq_true, beq_iff_eq] at hholds
    refine (hV.extended.acts hacts).may_tenant (t := .environments) (by decide) ?_
    rw [InOrganization, hholds.1]
    exact hin V.db hV.extended
  have hholds : ∀ inp : Input, (UniqueName.environmentName p.id name).wanted
      (⟨inp.uuid, p.id, name⟩ : Environment) = true := by
    intro inp
    simp [UniqueName.wanted, UniqueName.holds, UniqueName.live]
  refine reaches_claim_bind (k := .environmentName p.id name)
    (fun e seen => stable_loses e seen) (fun inp hnew hok => ?_) fun inp V hV hlog hocc => ?_
  · have hadm : vaultSchema.admitsInsert .environments (⟨inp.uuid, p.id, name⟩ : Environment)
        base = true := by
      refine UniqueName.admitsInsert_free (k := .environmentName p.id name) hfree
        (UniqueName.holds_of_wanted (hholds inp))
        (hids.unused hnew List.mem_cons_self .environments) ?_
      simpa [vaultSchema_referencesHold, referencesOf] using ⟨p, hp, rfl⟩
    have hclaims : (UniqueName.environmentName p.id name).Claims
        [.insert .environments (⟨inp.uuid, p.id, name⟩ : Environment)] :=
      ⟨⟨inp.uuid, p.id, name⟩, List.mem_cons_self, UniqueName.holds_of_wanted (hholds inp)⟩
    refine ⟨[.insert .environments ⟨inp.uuid, p.id, name⟩], ⟨inp.uuid, p.id, name⟩, ?_,
      fun V hU => ?_⟩
    · simp [UnitOfWork.insertRow, hacts.may_returning (t := .environments) (by decide)
        (r := ⟨inp.uuid, p.id, name⟩) (hin base (.refl hbase)), hadm]
    refine reaches_alone_bind hclaims hU fun random _ => ⟨[], random, rfl, fun V hU => ?_⟩
    refine reaches_handle ?_
    -- the environment is there, and it has no key yet
    have henv : (⟨inp.uuid, p.id, name⟩ : Environment) ∈
        vaultSchema.view [.insert .environments ⟨inp.uuid, p.id, name⟩] base .environments :=
      List.mem_append_right _ (List.mem_singleton.mpr rfl)
    have hnokey : ∀ key ∈ base .encryptionKeys, key.environmentId ≠ inp.uuid := by
      rintro key hkey heq
      obtain ⟨e, he, hid⟩ := parent_exists hbase hkey (by simp [referencesOf] :
        (.environments, some key.environmentId) ∈ referencesOf .encryptionKeys key)
      exact hids.unused hnew List.mem_cons_self .environments e he (hid.trans heq)
    refine Acts.reaches_insertFlushed_bind (m := m) rfl (hacts.congr rfl) (by decide) hclaims hU
      fun inp' hnew' => ⟨⟨_, henv, rfl, p, hp, rfl, ho⟩,
        admitsInsert_firstKey (hids.unused hnew' List.mem_cons_self .encryptionKeys) hnokey
          ⟨_, henv, rfl⟩, fun V hU => ?_⟩
    refine reaches_commit_ret (hclaims.append _) hU ⟨⟨inp.uuid, p.id, name⟩, henv, hholds inp⟩
      fun hvalid => .view hvalid (fun w hw => Or.inl ?_) ?_
    · simp only [List.append_nil, List.singleton_append, List.mem_cons, List.not_mem_nil,
        or_false] at hw
      rcases hw with rfl | rfl
      exacts [⟨_, _, rfl⟩, ⟨_, _, rfl⟩]
    · rintro ⟨_, _, hk⟩
      cases hk
  · exact insertRow_taken (k := .environmentName p.id name)
      (UniqueName.holds_of_wanted (hholds inp)) ((hV.extended.acts hacts).may_returning
        (t := .environments) (by decide) (hin V.db hV.extended))
      (hpassed 3 rfl) hlog hocc

theorem competes_createSecret {kms : LocalKMSProvider} {environment o actor : UUID}
    {keyName plainValue : String} (hk : k = .secretName environment keyName)
    (henv : EnvironmentIn base o environment) (hkey : ∃ key, OnlyKey kms base environment key)
    (hacts : ActsAs uow base o actor .member) :
    Competes n k base past i
      (SecretService.createSecret kms uow environment o keyName plainValue actor) ⟨[], []⟩ W := by
  obtain ⟨m, hacts, rfl, rfl, hrole⟩ := hacts
  obtain ⟨key, hkey⟩ := hkey
  refine competes_finds_bind (finds_requireOrgRole hacts hrole) fun _ first V _ hfirst => ?_
  refine competes_finds_bind (finds_resolveEnvironmentOrg hacts henv) fun _ second V _ hsecond => ?_
  subst hk
  refine competes_unless_existing (k := .secretName environment keyName)
    ⟨.secretAlreadyExistsError,
      "Secret '" ++ keyName ++ "' already exists in this environment."⟩ hfree (fun r => ?_) rfl
    (fun c hc => ⟨?_, ?_⟩) fun db V hpassed => ?_
  · simp [UniqueName.wanted, UniqueName.holds, UniqueName.live]
  · obtain rfl : 4 = c := Option.some.inj hc
    simp [hfirst, hsecond]
  · intro V hV r hr hw
    have hholds := UniqueName.holds_of_wanted hw
    simp only [UniqueName.holds, Bool.and_eq_true, beq_iff_eq] at hholds
    refine (hV.extended.acts hacts).may_tenant (t := .secrets) (by decide) ?_
    rw [InOrganization, hholds.1]
    exact hV.extended.environmentIn henv
  refine competes_finds_bind (finds_activeKey hacts rfl hkey henv) fun found third V hfound _ => ?_
  subst hfound
  refine competes_finds_bind (finds_encryptSecret hkey.wrapped)
    fun encrypted fourth V hnonce _ => ?_
  obtain ⟨random, hrandom, hnonce⟩ := hnonce
  have hpassed := ((hpassed 4 rfl).append third).append fourth
  have hholds : ∀ inp : Input, (UniqueName.secretName environment keyName).wanted
      (⟨inp.uuid, environment, keyName, none, false, none⟩ : Secret) = true := by
    intro inp
    simp [UniqueName.wanted, UniqueName.holds, UniqueName.live]
  refine reaches_claim_bind (k := .secretName environment keyName)
    (fun e seen => stable_loses e seen) (fun inp hnew hok => ?_) fun inp V hV hlog hocc => ?_
  · have henv' : ∃ e ∈ base .environments, e.id = environment := by
      obtain ⟨e, he, hid, -⟩ := henv
      exact ⟨e, he, hid⟩
    have hadm : vaultSchema.admitsInsert .secrets
        (⟨inp.uuid, environment, keyName, none, false, none⟩ : Secret) base = true := by
      refine UniqueName.admitsInsert_free (k := .secretName environment keyName) hfree
        (UniqueName.holds_of_wanted (hholds inp))
        (hids.unused hnew List.mem_cons_self .secrets) ?_
      simpa [vaultSchema_referencesHold, referencesOf, rowId] using henv'
    have hclaims : (UniqueName.secretName environment keyName).Claims
        [.insert .secrets (⟨inp.uuid, environment, keyName, none, false, none⟩ : Secret)] :=
      ⟨_, List.mem_cons_self, UniqueName.holds_of_wanted (hholds inp)⟩
    refine ⟨[.insert .secrets ⟨inp.uuid, environment, keyName, none, false, none⟩],
      ⟨inp.uuid, environment, keyName, none, false, none⟩, ?_, fun V hU => ?_⟩
    · simp [UnitOfWork.insertRow, hacts.may_returning (t := .secrets) (by decide)
        (r := ⟨inp.uuid, environment, keyName, none, false, none⟩) henv, hadm]
    -- the first version of the secret, under a nonce not in use
    have hs : (⟨inp.uuid, environment, keyName, none, false, none⟩ : Secret) ∈ vaultSchema.view
        [.insert .secrets ⟨inp.uuid, environment, keyName, none, false, none⟩] base .secrets :=
      List.mem_append_right _ (List.mem_singleton.mpr rfl)
    have hnoversion : ∀ r ∈ base .secretVersions, r.secretId ≠ inp.uuid := by
      intro r hr heq
      obtain ⟨s, hs, hid⟩ := parent_exists hbase hr (by simp [referencesOf] :
        (.secrets, some r.secretId) ∈ referencesOf .secretVersions r)
      exact hids.unused hnew List.mem_cons_self .secrets s hs (hid.trans heq)
    have hiv : ∀ r ∈ base .secretVersions, r.iv ≠ encrypted.2 := by
      intro r hr
      rw [hnonce]
      simpa using List.all_eq_true.mp hrandom r hr
    have huser := parent_exists hbase hacts.mem (by simp [referencesOf] :
      (.users, some m.userId) ∈ referencesOf .memberships m)
    have hadm' : ∀ inp' : Input, (∀ q ∈ past, ∀ x ∈ inp'.ids, x ∉ q.ids) →
        vaultSchema.admitsInsert .secretVersions (⟨inp'.uuid, inp.uuid, found.id, encrypted.1,
          encrypted.2, 1, some m.userId⟩ : SecretVersion) (vaultSchema.view
            [.insert .secrets ⟨inp.uuid, environment, keyName, none, false, none⟩] base) = true :=
      fun inp' hnew' => admitsInsert_version
        (hids.unused hnew' List.mem_cons_self .secretVersions)
        (fun r hr heq => absurd heq (hnoversion r hr)) hiv ⟨_, hkey.mem, rfl⟩
        ⟨_, hs, rfl⟩ fun u hu => Option.some.inj hu ▸ huser
    refine Acts.reaches_insertFlushed_bind (m := m) rfl (hacts.congr rfl) (by decide) hclaims hU
      fun inp' hnew' => ⟨⟨_, hs, rfl, henv⟩, hadm' inp' hnew', fun V hU => ?_⟩
    have hvalid := (hbase.insert hadm).insert (hadm' inp' hnew')
    refine Acts.reaches_commitPointer_ret (m := m) (v := vaultSchema.view
        [.insert .secrets ⟨inp.uuid, environment, keyName, none, false, none⟩,
          .insert .secretVersions ⟨inp'.uuid, inp.uuid, found.id, encrypted.1, encrypted.2, 1,
            some m.userId⟩] base) rfl (hacts.congr rfl) hvalid hs henv
      (List.mem_append_right _ (List.mem_singleton.mpr rfl)) rfl (hclaims.append _) hU ?_
      fun hv => .view hv ?_ ?_
    · exact ⟨_, Schema.mem_apply_update.mpr (Or.inl ⟨rfl, _, hs, rfl⟩), hholds inp⟩
    · intro w hw
      simp only [List.cons_append, List.nil_append, List.mem_cons, List.not_mem_nil,
        or_false] at hw
      rcases hw with rfl | rfl | rfl
      exacts [Or.inl ⟨_, _, rfl⟩, Or.inl ⟨_, _, rfl⟩, Or.inr rfl]
    · intro _ w hw
      simp only [List.cons_append, List.nil_append, List.mem_cons, List.not_mem_nil,
        or_false] at hw
      rcases hw with rfl | rfl | rfl <;> exact Table.noConfusion
  · exact insertRow_taken (k := .secretName environment keyName)
      (UniqueName.holds_of_wanted (hholds inp)) ((hV.extended.acts hacts).may_returning
        (t := .secrets) (by decide) (hV.extended.environmentIn henv)) hpassed hlog hocc

end

end EnvVault
