import Tabular.Disk.Template
import Tabular.Json.Pointer
import Tabular.Proofs.Acceptance
import Tabular.Proofs.Bundle
import Tabular.Proofs.Commuting
import Tabular.Proofs.EditsInPlace
import Tabular.Proofs.References
import Tabular.Proofs.Warnings
import Tabular.Proofs.Model.Formula
import Tabular.Proofs.Model.JsonReader
import Tabular.Proofs.Archive.Inflate
import Tabular.Proofs.Archive.Listing
import Tabular.Proofs.Archive.Written
import Tabular.Proofs.Container.Limits
import Tabular.Proofs.Container.ReadAll
import Tabular.Proofs.Text.Split
import Tabular.Proofs.Disk.Path
import Tabular.Proofs.Disk.Tree
import Tabular.Proofs.Disk.Unpack
import Tabular.Proofs.Disk.Pack
import Tabular.Proofs.Json.Path
import Tabular.Proofs.Json.Opened
import Tabular.Proofs.Json.Pruned
import Tabular.Proofs.Json.Writing
import Tabular.Proofs.Document.Collapse
import Tabular.Proofs.Document.Decoding
import Tabular.Proofs.Report.Storing
import Tabular.Proofs.Query.Literal
