import PageTemplate.Main
import PageTemplate.Proofs.Binding.Placeholders
import PageTemplate.Proofs.Page.RawText
import PageTemplate.Proofs.Page.Injection
import PageTemplate.Proofs.Page.Mounting
import PageTemplate.Proofs.Page.Nesting
import PageTemplate.Proofs.Document.Orderly
import PageTemplate.Proofs.Document.Splitting
import PageTemplate.Proofs.Document.RoundTrip
import PageTemplate.Proofs.Document.Assembly
import PageTemplate.Proofs.Binding.Ancestors
import PageTemplate.Proofs.Binding.Steps
import PageTemplate.Proofs.Binding.Reach
import PageTemplate.Proofs.Binding.Separate
import PageTemplate.Proofs.Page.Installed
import PageTemplate.Proofs.Page.Inventory
import PageTemplate.Proofs.Page.Retention
import PageTemplate.Proofs.Page.Hosting
import PageTemplate.Proofs.Page.Placement
import PageTemplate.Proofs.Page.Checking
import PageTemplate.Proofs.Command.Directory
import PageTemplate.Proofs.Page.Validating
import PageTemplate.Proofs.Page.Commuting
import PageTemplate.Proofs.Page.Bootstrapping
import PageTemplate.Proofs.Markup.References
import PageTemplate.Proofs.Document.Copying
import PageTemplate.Proofs.Binding.Extraction
import PageTemplate.Proofs.Binding.Lookups
import PageTemplate.Proofs.Page.Histories
import PageTemplate.Proofs.Binding.Ownership
import PageTemplate.Proofs.Document.Rooted
import PageTemplate.Proofs.Page.Recompiling
import PageTemplate.Proofs.Binding.Grammar
import PageTemplate.Proofs.Binding.Walks
import PageTemplate.Proofs.Page.Anchors
import PageTemplate.Proofs.Diagnostic.Excerpts
import PageTemplate.Proofs.Markup.Legibility
import PageTemplate.Proofs.Page.Diagnostics
