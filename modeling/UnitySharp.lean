import UnitySharp.CommandLine.Disk
import UnitySharp.Main
import UnitySharp.Proofs.Pass.Guarding
import UnitySharp.Proofs.ValueType.Evaluation
import UnitySharp.Proofs.Tree.Editing
import UnitySharp.Proofs.Pass.Conditions
import UnitySharp.Proofs.Type.Canonical
import UnitySharp.Proofs.Closure.Substitution
import UnitySharp.Proofs.Names.Escaping
import UnitySharp.Proofs.Code.Quoting
import UnitySharp.Proofs.Code.Expressions
import UnitySharp.Proofs.Comment.Deciding
import UnitySharp.Proofs.Code.Lines
import UnitySharp.Proofs.Convert.Screening
import UnitySharp.Proofs.Convert.Unsupported
