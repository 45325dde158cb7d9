import HashBox.Vault.Proof.SingleStore
import HashBox.Vault.Proof.Deployed
import HashBox.Vault.Proof.Retain
import HashBox.Vault.Proof.Manifests
import HashBox.Vault.Proof.Collection
import HashBox.Vault.Proof.Reports
import HashBox.Vault.Proof.Freshness
import HashBox.Vault.Proof.RefCounts
import HashBox.Vault.Proof.Failure
import HashBox.Vault.Proof.SessionState
import HashBox.Vault.Proof.Retrieval
import HashBox.Vault.Proof.ChunkFiles
import HashBox.Vault.Proof.Atomic
import HashBox.Vault.Proof.Texts
import HashBox.Vault.Proof.Chunker
import HashBox.Vault.Proof.Pipeline
import HashBox.Vault.Proof.Server
import HashBox.Vault.Proof.Fingerprint
import HashBox.Vault.Proof.Metadata
import HashBox.Vault.Proof.Conflicts
import HashBox.Api.Proof.Restore
import HashBox.Api.Proof.Content
import HashBox.Api.Proof.Intent
import HashBox.Api.Proof.Solo
import HashBox.Api.Proof.Navigation
import HashBox.Api.Proof.ClosureTable
import HashBox.Api.Proof.Siblings
import HashBox.Api.Proof.FileStatus
import HashBox.Api.Proof.Profile
import HashBox.Api.Proof.Sessions
import HashBox.Api.Proof.PasswordReset
import HashBox.Api.Proof.RateLimit
import HashBox.Api.Proof.Broadcast
import HashBox.Api.Proof.SecurityEvents
import HashBox.Api.Proof.SecurityLab
import HashBox.Api.Proof.MaxSizeReader
import HashBox.Api.Proof.Listings
import HashBox.Web.Proof.Sse
import HashBox.Api.Proof.Deployment
