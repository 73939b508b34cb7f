import EnvVault.Runs
import EnvVault.Transactions
import EnvVault.RelyGuarantee
import EnvVault.SoloRun
import EnvVault.Relational
import EnvVault.LastOwner
import EnvVault.OrganizationBootstrap
import EnvVault.TenantTakeover
import EnvVault.TokenRotation
import EnvVault.VersionChain
import EnvVault.Reveal
import EnvVault.ContainerDeletion
import EnvVault.OrganizationDeletion
import EnvVault.SecretNames
import EnvVault.OwnerRows
import EnvVault.SessionContext
import EnvVault.TenantAuthorization
import EnvVault.PrivilegeEscalation
import EnvVault.SuccessMeansEffect
import EnvVault.FailingStatements
import EnvVault.AuditTrail
import EnvVault.NameRaces
import EnvVault.RefreshAcceptance
import EnvVault.EnvelopeFormat
import EnvVault.LimiterAgreement
import EnvVault.LimiterWindows
import EnvVault.LimiterExpiry
import EnvVault.NestedRoutes
import EnvVault.AuthRateLimit
import EnvVault.ReuseDetection
import EnvVault.AuditPages
import EnvVault.UpdatedAt
import EnvVault.RevocationFinality
import EnvVault.StoredRows
import EnvVault.RequestRefinement
import EnvVault.VaultRefinement
import EnvVault.RouteMediation
import EnvVault.AuditReading
import EnvVault.AccessTokens
import EnvVault.Authentication
import EnvVault.TenantIntegrity
import EnvVault.TenantAnswers
import EnvVault.RevealRateLimit
