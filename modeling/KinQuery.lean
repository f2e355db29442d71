import KinQuery.Main
import KinQuery.Resource
import KinQuery.Service.Http
import KinQuery.Proofs.Calendar.Spelling
import KinQuery.Proofs.Dictionary.Pattern
import KinQuery.Proofs.Dictionary.Persistence
import KinQuery.Proofs.Dictionary.Segmentation
import KinQuery.Proofs.Family.Chain
import KinQuery.Proofs.Family.Generations
import KinQuery.Proofs.Family.Snapshot
import KinQuery.Proofs.Helper.Query
import KinQuery.Proofs.Lambda.Key
import KinQuery.Proofs.Range.Session
import KinQuery.Proofs.Scoping.Agreement
import KinQuery.Proofs.Session.Adding
import KinQuery.Proofs.Session.Committing
import KinQuery.Proofs.Session.Ego
import KinQuery.Proofs.Session.Expunging
import KinQuery.Proofs.Session.Failing
import KinQuery.Proofs.Session.FunctionName
import KinQuery.Proofs.Session.Naming
import KinQuery.Proofs.Session.Readable
import KinQuery.Proofs.Session.Relatives
import KinQuery.Proofs.Session.Script
import KinQuery.Proofs.Term.Clipping
import KinQuery.Proofs.Term.Composition
import KinQuery.Proofs.Term.Grammar
import KinQuery.Proofs.Term.Script
import KinQuery.Proofs.Text.Comment
