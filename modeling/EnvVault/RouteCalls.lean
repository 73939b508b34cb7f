import EnvVault.Routes
import EnvVault.VaultRuns

/-!
# The calls behind the routes

A route runs one service operation in the session of its dependency. Before it stands the
membership gate of `get_org_uow`, and after it at most the reload of a secret: queries both.
-/
namespace EnvVault
open EnvVault.Relational EnvVault.Transactions

namespace Request

variable {uow : UnitOfWork} {currentUser : UUID} {r : Request}

theorem reads_reload (secretId : UUID) : (reload uow secretId).Reads fun _ => True :=
  .bind (reads_selectOne _ _) fun secret _ => by cases secret <;> trivial

theorem reads_present (reply : Reply) : (r.present uow reply).Reads fun _ => True := by
  cases r <;> try trivial
  case rotateSecret => exact .bind (reads_reload _) fun _ _ => trivial
  case revealSecret =>
    cases reply <;> try trivial
    exact .bind (reads_reload _) fun _ _ => trivial

/-- After the operation a route only reads. -/
def finish (server : Server) (currentUser : UUID) (r : Request) (reply : Reply) : Tx Response := do
  let body ← r.present (r.session server currentUser) reply
  return ⟨r.successStatus, body⟩

theorem reads_finish (server : Server) (reply : Reply) :
    (r.finish server currentUser reply).Reads fun response => response.status = r.successStatus :=
  .bind (reads_present _) fun _ _ => rfl

theorem run_eq (server : Server) : r.run server currentUser =
    ((r.op currentUser).program server.deployment (r.session server currentUser)).bind
      (r.finish server currentUser) := rfl

end Request

section
variable {n : ℕ}

/-- All requests waiting to be handled. -/
def handling (server : Server) (users : Fin n → UUID) (requests : Fin n → Request)
    (W : VaultWorld n) : Sys n Input Db RowWrite Exn Response :=
  Sys.initial W fun i => (requests i).handle server (users i)

/-- The response of a request that has been handled. -/
def answered (t : Sys n Input Db RowWrite Exn Response) (i : Fin n) : Option Response :=
  match (t.call i).prog with
  | .ret response => some response
  | _ => none

theorem prog_of_answered {t : Sys n Input Db RowWrite Exn Response} {i : Fin n}
    {response : Response} (h : answered t i = some response) :
    (t.call i).prog = .ret response := by
  unfold answered at h
  split at h
  · rename_i hp
    exact Option.some.inj h ▸ hp
  · cases h

end

/-- One caller after the other, each with its number of steps, after `m` inputs. -/
def inTurn {n : ℕ} (m : ℕ) (steps : Fin n → ℕ) : Schedule n :=
  sampleSteps m ((List.finRange n).flatMap fun i => List.replicate (steps i) i)

/-- A sign-up, and an organization that the new user creates. -/
def firstRequests : Fin 2 → Request
  | 0 => .register "ann@acme.io" "correct horse" (some "Ann")
  | 1 => .createOrganization "Acme" "acme-inc"

def firstSteps : Schedule 2 := inTurn 1 fun
  | 0 => 5
  | 1 => 6

end EnvVault
